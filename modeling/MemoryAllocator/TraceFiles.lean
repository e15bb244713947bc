/-
# Loading a trace file

The pages parse the file of a `TraceWriter` and look at the properties of its objects by
their names.  A format of events says how a demo logs an event and how its page reads it
(`EventFormat`): whatever a call decodes to is read as the event of the call.  Then the
whole file is loaded as the events that were logged (`load_file`), if their strings have
nothing to be escaped.
-/
import MemoryAllocator.EventLog

open JsonText

namespace EventLog

/-! ## Properties of objects -/

/-- A property of an object: the value of the last member with the name. -/
def property : Json → String → Option Json
  | .obj ms, name => (ms.reverse.find? (fun m => m.1 = name)).map Prod.snd
  | _, _ => none

/-- A property that is an integer. -/
def intProperty (v : Json) (name : String) : Option ℤ :=
  match property v name with
  | some (.num q) => if q.den = 1 then some q.num else none
  | _ => none

/-- A property that is a natural number. -/
def natProperty (v : Json) (name : String) : Option ℕ :=
  match intProperty v name with
  | some (.ofNat n) => some n
  | _ => none

def stringProperty (v : Json) (name : String) : Option String :=
  match property v name with
  | some (.str s) => some s
  | _ => none

/-- The last member of a call with the name. -/
def LogCall.field (c : LogCall) (name : String) : Option FieldValue :=
  (c.members.reverse.find? (fun m => m.1 = utf8 name)).map Prod.snd

theorem utf8_injective : Function.Injective utf8 := by
  intro s t h
  have hs : decodeUtf8 (utf8 s) = some s := decodeUtf8_eq_some_iff.mpr rfl
  have ht : decodeUtf8 (utf8 s) = some t := decodeUtf8_eq_some_iff.mpr h.symm
  exact Option.some.inj (hs.symm.trans ht)

@[simp]
theorem utf8_inj {s t : String} : utf8 s = utf8 t ↔ s = t := utf8_injective.eq_iff

/-- The same item is found in two lists of items that correspond. -/
theorem find?_forall₂ {α β : Type} {R : α → β → Prop} {p : α → Bool} {q : β → Bool} {l : List α}
    {l' : List β} (h : List.Forall₂ R l l') (hpq : ∀ x y, R x y → p x = q y) :
    Option.Rel R (l.find? p) (l'.find? q) := by
  induction h with
  | nil => exact .none
  | @cons x y l l' hxy _ ih =>
    rw [List.find?_cons, List.find?_cons, ← hpq x y hxy]
    cases p x with
    | true => exact .some hxy
    | false => exact ih

/-- **A property of the object is the field of the call.** -/
theorem LogCall.Decodes.property {c : LogCall} {v : Json} (h : c.Decodes v) (name : String) :
    Option.Rel FieldValue.Decodes (c.field name) (EventLog.property v name) := by
  obtain ⟨ms, rfl, hms⟩ := h
  have hfind := find?_forall₂ (p := fun m => decide (m.1 = utf8 name))
    (q := fun m => decide (m.1 = name)) (List.rel_reverse hms) (fun x y hxy => by
      obtain ⟨hname, -⟩ := hxy
      rw [← hname]
      simp)
  show Option.Rel _ ((c.members.reverse.find? (fun m => decide (m.1 = utf8 name))).map Prod.snd)
    ((ms.reverse.find? (fun m => decide (m.1 = name))).map Prod.snd)
  revert hfind
  generalize c.members.reverse.find? (fun m => decide (m.1 = utf8 name)) = x
  generalize ms.reverse.find? (fun m => decide (m.1 = name)) = y
  rintro (⟨⟨-, hvalue⟩⟩ | _)
  · exact .some hvalue
  · exact .none

variable {c : LogCall} {v : Json} {name : String}

theorem LogCall.Decodes.int {n : ℤ} (h : c.Decodes v) (hfield : c.field name = some (.num n)) :
    intProperty v name = some n := by
  have hrel := h.property name
  rw [hfield] at hrel
  unfold intProperty
  cases hproperty : EventLog.property v name with
  | none =>
    rw [hproperty] at hrel
    cases hrel
  | some w =>
    rw [hproperty] at hrel
    obtain ⟨hw⟩ := hrel
    obtain rfl : w = .num n := hw
    simp

theorem LogCall.Decodes.nat {n : ℕ} (h : c.Decodes v) (hfield : c.field name = some (.num n)) :
    natProperty v name = some n := by
  unfold natProperty
  rw [h.int hfield]

theorem LogCall.Decodes.string {s : String} (h : c.Decodes v)
    (hfield : c.field name = some (.str (utf8 s))) : stringProperty v name = some s := by
  have hrel := h.property name
  rw [hfield] at hrel
  unfold stringProperty
  cases hproperty : EventLog.property v name with
  | none =>
    rw [hproperty] at hrel
    cases hrel
  | some w =>
    rw [hproperty] at hrel
    obtain ⟨hw⟩ := hrel
    obtain ⟨t, rfl, ht⟩ := hw
    rw [utf8_injective ht]

/-- A property that has not been written. -/
theorem LogCall.Decodes.absent (h : c.Decodes v) (hfield : c.field name = none) :
    stringProperty v name = none := by
  have hrel := h.property name
  rw [hfield] at hrel
  unfold stringProperty
  cases hproperty : EventLog.property v name with
  | none => rfl
  | some w =>
    rw [hproperty] at hrel
    cases hrel

/-- A call with its names as strings. -/
def logCall (tick : ℤ) (type : String) (pid : ℤ) (fields : List (String × FieldValue)) : LogCall :=
  ⟨tick, utf8 type, pid, fields.map (fun f => (utf8 f.1, f.2))⟩

theorem plainNames_logCall {tick pid : ℤ} {type : String} {fields : List (String × FieldValue)}
    (h : ∀ word ∈ type :: fields.map Prod.fst, Plain (utf8 word)) :
    (logCall tick type pid fields).PlainNames := by
  refine ⟨h type (List.mem_cons_self ..), List.forall_mem_map.mpr (fun f hf => ?_)⟩
  exact h f.1 (List.mem_cons_of_mem _ (List.mem_map_of_mem hf))

/-- Only the string values matter. -/
theorem encodable_logCall {tick pid : ℤ} {type : String} {fields : List (String × FieldValue)}
    (h : ∀ f ∈ fields, f.2.Encodable) : (logCall tick type pid fields).Encodable := by
  have hword : ∀ word : String, WellFormed (utf8 word) := fun word => wellFormed_iff.mpr ⟨word, rfl⟩
  exact ⟨hword type, List.forall_mem_map.mpr (fun f hf => ⟨hword f.1, h f hf⟩)⟩

/-- A member of a call, the last one with the name. -/
theorem field_logCall (tick pid : ℤ) (type : String) (fields : List (String × FieldValue))
    (name : String) : (logCall tick type pid fields).field name
      = ((("tick", .num tick) :: ("type", .str (utf8 type)) :: ("pid", .num pid) ::
          fields).reverse.find? (fun m => m.1 = name)).map Prod.snd := by
  have hmembers : (logCall tick type pid fields).members = (("tick", .num tick) ::
      ("type", .str (utf8 type)) :: ("pid", .num pid) :: fields).map (fun f => (utf8 f.1, f.2)) := rfl
  unfold LogCall.field
  rw [hmembers, ← List.map_reverse, List.find?_map, Option.map_map]
  simp only [Function.comp_def, utf8_inj]

/-! ## Formats of events -/

/-- How events are logged, and how they are read.  The names are written as they are. -/
structure EventFormat (ε : Type) where
  call : ℤ → ε → LogCall
  read : Json → Option ε
  names : ∀ tick e, (call tick e).PlainNames
  read_call : ∀ {tick e v}, (call tick e).Decodes v → read v = some e

namespace EventFormat

variable {ε : Type} (F : EventFormat ε)

/-- The file of a `TraceWriter` that has logged the events at the ticks and has then been
destroyed: the array is closed. -/
def file (entries : List (ℤ × ε)) : Bytes := traceLog (entries.map (fun x => F.call x.1 x.2))

/-- What is read in a file, if it is an array of events. -/
def load (text : Bytes) : Option (List ε) :=
  match parse text with
  | some (.arr vs) => vs.mapM F.read
  | _ => none

theorem mapM_read {entries : List (ℤ × ε)} {vs : List Json}
    (h : List.Forall₂ LogCall.Decodes (entries.map (fun x => F.call x.1 x.2)) vs) :
    vs.mapM F.read = some (entries.map Prod.snd) := by
  induction entries generalizing vs with
  | nil =>
    cases h
    rfl
  | cons x entries ih =>
    obtain ⟨v, vs, hv, hvs, rfl⟩ := List.forall₂_cons_left_iff.mp h
    rw [List.mapM_cons, F.read_call hv, ih hvs]
    rfl

/-- **The file is loaded as the events that were logged**, at whatever ticks. -/
theorem load_file {entries : List (ℤ × ε)}
    (h : ∀ x ∈ entries, (F.call x.1 x.2).Encodable) :
    F.load (F.file entries) = some (entries.map Prod.snd) := by
  have hnames : ∀ c ∈ entries.map (fun x => F.call x.1 x.2), c.PlainNames :=
    List.forall_mem_map.mpr (fun x _ => F.names x.1 x.2)
  obtain ⟨vs, hparse, hvs⟩ := (encodes_iff_encodable hnames).mpr (List.forall_mem_map.mpr h)
  unfold load file
  rw [traceLog_eq, hparse]
  exact F.mapM_read hvs

end EventFormat

end EventLog
