/-
# `EventLogger.hpp` and `trace_writer.hpp`

Two classes with the same code write the events of a run as a JSON array, by hand.  The
constructor opens the array, each call writes an object and the destructor closes the
array.  A string is put between quotes as it is.

The text is read back as the calls if and only if every string value is UTF-8 without
quotes, backslashes and control characters.
-/
import MemoryAllocator.JsonReads

open JsonText

namespace OS

/-- The stream, and whether nothing has been logged.  The strings are bytes. -/
structure EventLogger where
  out : Bytes
  first : Bool := true
  deriving DecidableEq

namespace EventLogger

/-- The constructor. -/
def create : EventLogger := { out := utf8 "[\n" }

def write (l : EventLogger) (s : Bytes) : EventLogger := { l with out := l.out ++ s }

def log (l : EventLogger) (tick : ℤ) (type : Bytes) (pid : ℤ) (fields : List (Bytes × Bytes)) :
    EventLogger :=
  let l := if l.first then l else l.write (utf8 ",\n")
  let l := { l with first := false }
  let l := l.write (utf8 "  \x7b"
    ++ (utf8 "\"tick\":" ++ (decimal tick ++ (utf8 ","
    ++ (utf8 "\"type\":\"" ++ (type ++ (utf8 "\","
    ++ (utf8 "\"pid\":" ++ decimal pid))))))))
  let l := fields.foldl
    (fun l f => l.write (utf8 ",\"" ++ (f.1 ++ (utf8 "\":" ++ f.2)))) l
  l.write (utf8 "\x7d")

/-- The text of the file after the destructor. -/
def close (l : EventLogger) : Bytes := l.out ++ utf8 "\n]\n"

def str (s : Bytes) : Bytes := utf8 "\"" ++ s ++ utf8 "\""

def num (n : ℤ) : Bytes := decimal n

end EventLogger

end OS

namespace Memlab

/-- The class of the simulator has the code of `EventLogger`. -/
abbrev TraceWriter := OS.EventLogger

namespace TraceWriter

def create : TraceWriter := OS.EventLogger.create

def log (w : TraceWriter) (tick : ℤ) (type : Bytes) (pid : ℤ) (fields : List (Bytes × Bytes)) :
    TraceWriter :=
  OS.EventLogger.log w tick type pid fields

def close (w : TraceWriter) : Bytes := OS.EventLogger.close w

def str (s : Bytes) : Bytes := OS.EventLogger.str s

def num (n : ℤ) : Bytes := OS.EventLogger.num n

end TraceWriter

end Memlab

namespace EventLog

/-! ## Calls -/

/-- The value of a field, before it is made a text. -/
inductive FieldValue where
  | num (n : ℤ)
  | str (s : Bytes)
  deriving DecidableEq, Repr

/-- A call of `Log`. -/
structure LogCall where
  tick : ℤ
  type : Bytes
  pid : ℤ
  fields : List (Bytes × FieldValue) := []
  deriving DecidableEq, Repr

/-- The text of a value, by `EventLogger`. -/
def FieldValue.text : FieldValue → Bytes
  | .num n => OS.EventLogger.num n
  | .str s => OS.EventLogger.str s

/-- The text of a value, by `TraceWriter`. -/
def FieldValue.traceText : FieldValue → Bytes
  | .num n => Memlab.TraceWriter.num n
  | .str s => Memlab.TraceWriter.str s

/-- A call of an `EventLogger`. -/
def LogCall.log (l : OS.EventLogger) (c : LogCall) : OS.EventLogger :=
  l.log c.tick c.type c.pid (c.fields.map (fun f => (f.1, f.2.text)))

/-- A call of a `TraceWriter`. -/
def LogCall.trace (w : Memlab.TraceWriter) (c : LogCall) : Memlab.TraceWriter :=
  Memlab.TraceWriter.log w c.tick c.type c.pid (c.fields.map (fun f => (f.1, f.2.traceText)))

/-- The file of an `EventLogger`, from its construction to its destruction. -/
def eventLog (calls : List LogCall) : Bytes :=
  (calls.foldl LogCall.log OS.EventLogger.create).close

/-- The file of a `TraceWriter`, from its construction to its destruction. -/
def traceLog (calls : List LogCall) : Bytes :=
  Memlab.TraceWriter.close (calls.foldl LogCall.trace Memlab.TraceWriter.create)

/-- What a value of a field should decode to. -/
def FieldValue.Decodes : FieldValue → Json → Prop
  | .num n, v => v = .num n
  | .str s, v => ∃ t, v = .str t ∧ utf8 t = s

/-- The members of the object of a call. -/
def LogCall.members (c : LogCall) : List (Bytes × FieldValue) :=
  (utf8 "tick", .num c.tick) :: (utf8 "type", .str c.type) :: (utf8 "pid", .num c.pid) :: c.fields

/-- An object with exactly the tick, the type, the pid and the fields of a call. -/
def LogCall.Decodes (c : LogCall) (v : Json) : Prop :=
  ∃ ms, v = .obj ms ∧ List.Forall₂ (MemberMeans FieldValue.Decodes) c.members ms

/-- **The text is a JSON array of the calls.** -/
def Encodes (text : Bytes) (calls : List LogCall) : Prop :=
  ∃ vs, parse text = some (.arr vs) ∧ List.Forall₂ LogCall.Decodes calls vs

/-- The bytes are the UTF-8 encoding of a string. -/
def WellFormed (s : Bytes) : Prop := (decodeUtf8 s).isSome

instance (s : Bytes) : Decidable (WellFormed s) := inferInstanceAs (Decidable (_ = true))

/-- The type and the keys have nothing to be escaped. -/
def LogCall.PlainNames (c : LogCall) : Prop := Plain c.type ∧ ∀ f ∈ c.fields, Plain f.1

instance (c : LogCall) : Decidable c.PlainNames := inferInstanceAs (Decidable (_ ∧ _))

/-- A string value is UTF-8 and has nothing to be escaped. -/
def FieldValue.Encodable : FieldValue → Prop
  | .num _ => True
  | .str s => WellFormed s ∧ Plain s

instance : (x : FieldValue) → Decidable x.Encodable
  | .num _ => inferInstanceAs (Decidable True)
  | .str _ => inferInstanceAs (Decidable (_ ∧ _))

/-- The strings are UTF-8, and the string values have nothing to be escaped. -/
def LogCall.Encodable (c : LogCall) : Prop :=
  WellFormed c.type ∧ ∀ f ∈ c.fields, WellFormed f.1 ∧ f.2.Encodable

instance (c : LogCall) : Decidable c.Encodable := inferInstanceAs (Decidable (_ ∧ _))

/-! ## The text -/

/-- The object of a call, as it is written. -/
def LogCall.text (c : LogCall) : Bytes :=
  byte '\x7b' :: (memberText FieldValue.text (utf8 "tick", .num c.tick)
    ++ (followers [] (memberText FieldValue.text)
      ((utf8 "type", .str c.type) :: (utf8 "pid", .num c.pid) :: c.fields) ++ [byte '\x7d']))

theorem text_num (n : ℤ) : (FieldValue.num n).text = decimal n := rfl

theorem text_str (s : Bytes) : (FieldValue.str s).text = quoted s := rfl

theorem foldl_write (fields : List (Bytes × FieldValue)) (l : OS.EventLogger) :
    (fields.map (fun f => (f.1, f.2.text))).foldl
        (fun l f => l.write (utf8 ",\"" ++ (f.1 ++ (utf8 "\":" ++ f.2)))) l
      = l.write (followers [] (memberText FieldValue.text) fields) := by
  induction fields generalizing l with
  | nil => simp [followers, OS.EventLogger.write]
  | cons f fields ih =>
    rw [List.map_cons, List.foldl_cons, ih]
    have hcomma : utf8 ",\"" = [byte ',', byte '"'] := by decide
    have hcolon : utf8 "\":" = [byte '"', byte ':'] := by decide
    simp [OS.EventLogger.write, followers, memberText, quoted, hcomma, hcolon]

/-- The text of a call, after a comma if it is not the first one. -/
theorem log_eq (l : OS.EventLogger) (c : LogCall) :
    c.log l = { out := l.out ++ ((if l.first then [] else utf8 ",\n") ++ (utf8 "  " ++ c.text))
                first := false } := by
  have htick : utf8 "\"tick\":" = quoted (utf8 "tick") ++ [byte ':'] := by decide
  have htype : utf8 "\"type\":\"" = quoted (utf8 "type") ++ [byte ':', byte '"'] := by decide
  have hpid : utf8 "\"pid\":" = quoted (utf8 "pid") ++ [byte ':'] := by decide
  have hbrace : utf8 "  \x7b" = utf8 "  " ++ [byte '\x7b'] := by decide
  have hclose : utf8 "\x7d" = [byte '\x7d'] := by decide
  have hcomma : utf8 "," = [byte ','] := by decide
  have hquote : utf8 "\"," = [byte '"', byte ','] := by decide
  unfold LogCall.log OS.EventLogger.log
  dsimp only
  rw [foldl_write]
  cases l.first <;>
    simp [OS.EventLogger.write, LogCall.text, memberText, followers, text_num, text_str, quoted,
      htick, htype, hpid, hbrace, hclose, hcomma, hquote]

/-- The text of the file. -/
theorem eventLog_cons (c : LogCall) (calls : List LogCall) :
    eventLog (c :: calls) = byte '[' :: (utf8 "\n  " ++ (c.text
      ++ (followers (utf8 "\n  ") LogCall.text calls ++ (utf8 "\n" ++ [byte ']'])))) ++ utf8 "\n" := by
  have hlater : ∀ (calls : List LogCall) (l : OS.EventLogger), l.first = false →
      (calls.foldl LogCall.log l).out = l.out ++ followers (utf8 "\n  ") LogCall.text calls := by
    intro calls
    induction calls with
    | nil => exact fun l _ => (List.append_nil l.out).symm
    | cons c calls ih =>
      intro l hl
      have hspaces : utf8 ",\n" ++ utf8 "  " = byte ',' :: utf8 "\n  " := by decide
      rw [List.foldl_cons, log_eq, ih _ rfl, hl]
      simp [followers, ← hspaces]
  have hopen : utf8 "[\n" ++ utf8 "  " = byte '[' :: utf8 "\n  " := by decide
  have hclose : utf8 "\n]\n" = utf8 "\n" ++ [byte ']'] ++ utf8 "\n" := by decide
  rw [eventLog, List.foldl_cons, log_eq, OS.EventLogger.close, hlater _ _ rfl, hclose]
  simp only [OS.EventLogger.create, if_true, List.nil_append, List.append_assoc, List.cons_append]
  rw [← List.append_assoc, hopen, List.cons_append]

/-! ## What is read back -/

/-- The value of a field is read back if and only if there is nothing to be escaped. -/
def FieldValue.PlainValue : FieldValue → Prop
  | .num _ => True
  | .str s => Plain s

theorem reads_value (x : FieldValue) : Reads x.text x.PlainValue x.Decodes := by
  cases x with
  | num n => exact reads_decimal n
  | str s => exact reads_quoted s

theorem reads_call (c : LogCall) :
    Reads c.text (∀ m ∈ c.members, Plain m.1 ∧ m.2.PlainValue) c.Decodes :=
  reads_object reads_value (utf8 "tick", .num c.tick)
    ((utf8 "type", .str c.type) :: (utf8 "pid", .num c.pid) :: c.fields)

/-- The text is a JSON text for the calls. -/
theorem encodes_iff_exists (text : Bytes) (calls : List LogCall) :
    Encodes text calls ↔
      ∃ v, parse text = some v ∧ ∃ vs, v = .arr vs ∧ List.Forall₂ LogCall.Decodes calls vs := by
  constructor
  · rintro ⟨vs, hparse, hvs⟩
    exact ⟨.arr vs, hparse, vs, rfl, hvs⟩
  · rintro ⟨v, hparse, vs, rfl, hvs⟩
    exact ⟨vs, hparse, hvs⟩

theorem wellFormed_iff {s : Bytes} : WellFormed s ↔ ∃ t, utf8 t = s := by
  unfold WellFormed
  rw [Option.isSome_iff_exists]
  simp only [decodeUtf8_eq_some_iff]

theorem exists_decodes_value (x : FieldValue) :
    (∃ v, x.Decodes v) ↔ ∀ s, x = .str s → WellFormed s := by
  cases x with
  | num n =>
    refine iff_of_true ⟨.num n, rfl⟩ (fun s hs => ?_)
    cases hs
  | str s =>
    constructor
    · rintro ⟨v, t, -, ht⟩ s' hs
      cases hs
      exact wellFormed_iff.mpr ⟨t, ht⟩
    · intro h
      obtain ⟨t, ht⟩ := wellFormed_iff.mp (h s rfl)
      exact ⟨.str t, t, rfl, ht⟩

/-- A list of items can be decoded if and only if each of them can. -/
theorem exists_forall₂_iff {α β : Type} {R : α → β → Prop} {l : List α} :
    (∃ l', List.Forall₂ R l l') ↔ ∀ x ∈ l, ∃ y, R x y := by
  induction l with
  | nil => exact iff_of_true ⟨[], .nil⟩ (fun x hx => absurd hx List.not_mem_nil)
  | cons x l ih =>
    rw [List.forall_mem_cons, ← ih]
    constructor
    · rintro ⟨_, h⟩
      obtain ⟨y, l', hxy, hl, rfl⟩ := List.forall₂_cons_left_iff.mp h
      exact ⟨⟨y, hxy⟩, l', hl⟩
    · rintro ⟨⟨y, hxy⟩, l', hl⟩
      exact ⟨y :: l', .cons hxy hl⟩

theorem spaces_newline : ∀ b ∈ utf8 "\n", isSpace b = true := List.all_eq_true.mp (by decide)

theorem encodes_nil : Encodes (eventLog []) [] := by
  have htext : eventLog [] = byte '[' :: (utf8 "\n\n" ++ [byte ']']) ++ utf8 "\n" := by decide
  have hread := reads_emptyArray (List.all_eq_true.mp (show (utf8 "\n\n").all isSpace = true by decide))
  obtain ⟨v, hparse, rfl⟩ := (parse_iff hread spaces_newline).mpr ⟨trivial, .arr [], rfl⟩
  rw [← htext] at hparse
  exact ⟨[], hparse, .nil⟩

/-- The text is read back if and only if nothing has to be escaped, and the calls can be
decoded at all. -/
theorem encodes_iff (calls : List LogCall) :
    Encodes (eventLog calls) calls ↔
      (∀ c ∈ calls, ∀ m ∈ c.members, Plain m.1 ∧ m.2.PlainValue) ∧
        ∀ c ∈ calls, ∃ v, c.Decodes v := by
  cases calls with
  | nil =>
    exact iff_of_true encodes_nil
      ⟨fun c hc => absurd hc List.not_mem_nil, fun c hc => absurd hc List.not_mem_nil⟩
  | cons c calls =>
    have hspaces : ∀ b ∈ utf8 "\n  ", isSpace b = true := List.all_eq_true.mp (by decide)
    have hread := reads_array reads_call hspaces spaces_newline c calls
    rw [encodes_iff_exists, eventLog_cons, parse_iff hread spaces_newline, ← exists_forall₂_iff]
    refine and_congr_right (fun _ => ?_)
    constructor
    · rintro ⟨v, vs, -, hvs⟩
      exact ⟨vs, hvs⟩
    · rintro ⟨vs, hvs⟩
      exact ⟨.arr vs, vs, rfl, hvs⟩

/-- The calls can be decoded if and only if their strings are UTF-8. -/
theorem exists_decodes_iff (c : LogCall) :
    (∃ v, c.Decodes v) ↔
      ∀ m ∈ c.members, WellFormed m.1 ∧ ∀ s, m.2 = .str s → WellFormed s := by
  have hmember : ∀ m : Bytes × FieldValue, (∃ nv, MemberMeans FieldValue.Decodes m nv) ↔
      WellFormed m.1 ∧ ∀ s, m.2 = .str s → WellFormed s := by
    intro m
    rw [wellFormed_iff, ← exists_decodes_value]
    constructor
    · rintro ⟨⟨name, v⟩, hname, hv⟩
      exact ⟨⟨name, hname⟩, v, hv⟩
    · rintro ⟨⟨name, hname⟩, v, hv⟩
      exact ⟨(name, v), hname, hv⟩
  simp only [← hmember]
  rw [← exists_forall₂_iff]
  constructor
  · rintro ⟨v, ms, -, hms⟩
    exact ⟨ms, hms⟩
  · rintro ⟨ms, hms⟩
    exact ⟨.obj ms, ms, rfl, hms⟩

/-- With plain names, only the values matter. -/
theorem encodable_iff {c : LogCall} (hnames : c.PlainNames) :
    ((∀ m ∈ c.members, Plain m.1 ∧ m.2.PlainValue) ∧
      ∀ m ∈ c.members, WellFormed m.1 ∧ ∀ s, m.2 = .str s → WellFormed s) ↔ c.Encodable := by
  obtain ⟨htype, hkeys⟩ := hnames
  have hvalue : ∀ x : FieldValue, x.Encodable ↔
      x.PlainValue ∧ ∀ s, x = .str s → WellFormed s := by
    intro x
    cases x with
    | num n => exact iff_of_true trivial ⟨trivial, fun s hs => by cases hs⟩
    | str s =>
      constructor
      · rintro ⟨hwell, hplain⟩
        exact ⟨hplain, fun s' hs => by cases hs; exact hwell⟩
      · rintro ⟨hplain, hwell⟩
        exact ⟨hwell s rfl, hplain⟩
  have hkeyword : ∀ word ∈ ["tick", "type", "pid"], Plain (utf8 word) := by decide +kernel
  have hword : ∀ word : String, WellFormed (utf8 word) := fun word => wellFormed_iff.mpr ⟨word, rfl⟩
  constructor
  · rintro ⟨hplain, hwell⟩
    have htypeWell := (hwell (utf8 "type", .str c.type) (by simp [LogCall.members])).2 c.type rfl
    refine ⟨htypeWell, fun f hf => ?_⟩
    have hmem : f ∈ c.members := by simp [LogCall.members, hf]
    exact ⟨(hwell f hmem).1, (hvalue f.2).mpr ⟨(hplain f hmem).2, (hwell f hmem).2⟩⟩
  · rintro ⟨htypeWell, hfields⟩
    simp only [LogCall.members, List.forall_mem_cons]
    refine ⟨⟨⟨hkeyword _ (by simp), trivial⟩, ⟨hkeyword _ (by simp), htype⟩,
        ⟨hkeyword _ (by simp), trivial⟩, fun f hf => ?_⟩,
      ⟨hword _, fun s hs => by cases hs⟩, ⟨hword _, fun s hs => by cases hs; exact htypeWell⟩,
        ⟨hword _, fun s hs => by cases hs⟩, fun f hf => ?_⟩
    · exact ⟨hkeys f hf, ((hvalue f.2).mp (hfields f hf).2).1⟩
    · exact ⟨(hfields f hf).1, ((hvalue f.2).mp (hfields f hf).2).2⟩

/-- The file of a `TraceWriter` is that of an `EventLogger`. -/
theorem traceLog_eq (calls : List LogCall) : traceLog calls = eventLog calls := by
  have htext : FieldValue.traceText = FieldValue.text := by
    funext x
    cases x <;> rfl
  have htrace : LogCall.trace = LogCall.log := by
    funext l c
    unfold LogCall.trace LogCall.log
    rw [htext]
    rfl
  unfold traceLog eventLog
  rw [htrace]
  rfl

theorem encodes_iff_encodable {calls : List LogCall} (hnames : ∀ c ∈ calls, c.PlainNames) :
    Encodes (eventLog calls) calls ↔ ∀ c ∈ calls, c.Encodable := by
  rw [encodes_iff]
  constructor
  · rintro ⟨hplain, hdecodes⟩ c hc
    exact (encodable_iff (hnames c hc)).mp
      ⟨hplain c hc, (exists_decodes_iff c).mp (hdecodes c hc)⟩
  · intro h
    have hboth := fun c hc => (encodable_iff (hnames c hc)).mpr (h c hc)
    exact ⟨fun c hc => (hboth c hc).1, fun c hc => (exists_decodes_iff c).mpr (hboth c hc).2⟩

/-- **The event log is a faithful JSON encoding** if and only if every string value is
UTF-8 without quotes, backslashes and control characters. -/
theorem eventLog_encodes_iff (calls : List LogCall) (hnames : ∀ c ∈ calls, c.PlainNames) :
    (Encodes (eventLog calls) calls ↔ ∀ c ∈ calls, c.Encodable) ∧
      (Encodes (traceLog calls) calls ↔ ∀ c ∈ calls, c.Encodable) := by
  rw [traceLog_eq]
  exact ⟨encodes_iff_encodable hnames, encodes_iff_encodable hnames⟩

/-- The first events of a process with the name. -/
def created (name : String) : List LogCall :=
  [{ tick := 0, type := utf8 "process_created", pid := 1,
     fields := [(utf8 "name", .str (utf8 name)), (utf8 "memoryRequest", .num 128)] },
   { tick := 0, type := utf8 "process_ready", pid := 1 }]

theorem created_encodes :
    eventLog (created "init") = utf8 ("[\n  \x7b\"tick\":0,\"type\":\"process_created\",\"pid\":1," ++
      "\"name\":\"init\",\"memoryRequest\":128\x7d,\n" ++
      "  \x7b\"tick\":0,\"type\":\"process_ready\",\"pid\":1\x7d\n]\n") ∧
    Encodes (eventLog (created "init")) (created "init") :=
  ⟨by decide +kernel,
    (eventLog_encodes_iff (created "init") (by decide +kernel)).1.mpr (by decide +kernel)⟩

/-- A quote in a name: the text is no JSON text. -/
theorem quote_not_encodes :
    (∀ c ∈ created "a\"b", c.PlainNames) ∧ (parse (eventLog (created "a\"b"))).isNone ∧
      ¬ Encodes (eventLog (created "a\"b")) (created "a\"b") := by
  have hnames : ∀ c ∈ created "a\"b", c.PlainNames := by decide +kernel
  refine ⟨hnames, by decide +kernel, fun h => ?_⟩
  have hencodable := (encodes_iff_encodable hnames).mp h
  revert hencodable
  decide +kernel

end EventLog
