import DBusTypes.Session
import DBusTypes.Proofs.Building

/-!
# Levels play no part

A level is shown, and that is all that is done with it. Two sessions that give their signatures other
levels go on side by side: they hold the same texts and the same iterators, their sets have the same
elements, and every step gives the same answer but for the levels in it.

1. What has a level is compared without it (`unleveled`).
2. Operations on signatures read texts only, and the set finds its elements by their texts, so one
   step keeps two sessions alike (`Session.Alike.step`).
3. Hence so do all steps (`Session.Alike.run`).

* `Session.level_of_makes` — what a step makes has level 0
* `levels_inert` — **levels make no difference to any answer**, and nothing that is made has one
-/

namespace DBusTypes

/-! ## Without levels -/

/-- The same signature outside of any variant. -/
def Signature.unleveled (x : Signature) : Signature := x.withLevel 0

/-- The same value, with the level of a signature taken away. -/
def Value.unleveled : Value → Value
  | .signature x => .signature x.unleveled
  | v => v

/-- The same answer, with the level of a signature taken away. -/
def Answer.unleveled : Answer → Answer
  | .signature x => .signature x.unleveled
  | a => a

/-- The same step, except that the level it gives is 0. -/
def Step.unleveled : Step → Step
  | .level source _ dest => .level source 0 dest
  | x => x

/-- Whether a step makes a new signature: of a text, of other signatures, of an item, or of JSON. -/
def Step.Makes : Step → Prop
  | .new .. | .array .. | .dict .. | .struct .. | .toSignature .. | .deserialize .. | .roundTrip .. =>
    True
  | _ => False

/-- What comparing the values of two slots gives. -/
def Value.compared : Option Value → Option Value → Answer
  | some (.signature x), some (.signature y) => .sameSignature (x == y) (hash x == hash y)
  | some (.portion x), some (.portion y) => .sameItem (x == y)
  | some (.excerpt x), some (.excerpt y) => .sameItem (x == y)
  | _, _ => .badSlot

namespace Signature

variable {x y s : Signature}

theorem unleveled_eq_iff : x.unleveled = y.unleveled ↔ x.text = y.text := by
  simp [unleveled, withLevel]

/-- What is equal but for the level is equal as a signature. -/
theorem beq_of_unleveled (h : x.unleveled = y.unleveled) : (x == y) = true :=
  (beq_iff x y).mpr (unleveled_eq_iff.mp h)

/-- What is made of a checked text has level 0. -/
theorem level_of_within {limits : Limits} {text : Bytes} (h : within limits text = .ok s) :
    s.level = 0 := by
  obtain ⟨-, rfl⟩ := within_ok_iff.mp h
  rfl

theorem level_of_origin {origin : Origin} (h : origin.signature = .ok s) : s.level = 0 := by
  cases origin with
  | empty =>
    obtain rfl := Except.ok.inj h
    rfl
  | text b => exact level_of_within h
  | within limits b => exact level_of_within h

end Signature

/-! ## Sessions side by side -/

namespace Session

/-- Whether two sessions hold the same but for levels. -/
structure Alike (s s' : Session) : Prop where
  slots : s.slots.map (Prod.map id Value.unleveled) = s'.slots.map (Prod.map id Value.unleveled)
  set : ∀ x, x ∈ s.set ↔ x ∈ s'.set
  size : s.set.size = s'.set.size

/-- Whether two sessions and the answers they were left with are the same but for levels. -/
def AlikeWith (r r' : Session × Answer) : Prop :=
  r.1.Alike r'.1 ∧ r.2.unleveled = r'.2.unleveled

variable {s s' s'' : Session}

theorem Alike.refl (s : Session) : s.Alike s := ⟨rfl, fun _ => Iff.rfl, rfl⟩

theorem Alike.symm (h : s.Alike s') : s'.Alike s :=
  ⟨h.slots.symm, fun x => (h.set x).symm, h.size.symm⟩

theorem Alike.trans (h : s.Alike s') (h' : s'.Alike s'') : s.Alike s'' :=
  ⟨h.slots.trans h'.slots, fun x => (h.set x).trans (h'.set x), h.size.trans h'.size⟩

/-! ## Slots -/

/-- Where two optional values show the same, both are missing or both are there. -/
theorem map_eq_map_cases {α β : Type} {f : α → β} {v w : Option α} (h : v.map f = w.map f) :
    (v = none ∧ w = none) ∨ ∃ a b, v = some a ∧ w = some b ∧ f a = f b := by
  rcases v with _ | a <;> rcases w with _ | b
  · exact Or.inl ⟨rfl, rfl⟩
  · simp at h
  · simp at h
  · exact Or.inr ⟨a, b, rfl, rfl, Option.some.inj h⟩

theorem lookup_map_unleveled (slot : Slot) (slots : List (Slot × Value)) :
    (slots.map (Prod.map id Value.unleveled)).lookup slot =
      (slots.lookup slot).map Value.unleveled := by
  induction slots with
  | nil => rfl
  | cons p slots ih =>
    obtain ⟨k, v⟩ := p
    by_cases hk : slot = k
    · subst hk
      simp
    · have hb : (slot == k) = false := by simpa using hk
      simp [List.lookup_cons, hb, ih]

theorem Alike.get? (h : s.Alike s') (slot : Slot) :
    (s.get? slot).map Value.unleveled = (s'.get? slot).map Value.unleveled := by
  rw [Session.get?, Session.get?, ← lookup_map_unleveled, ← lookup_map_unleveled, h.slots]

/-- A slot holds signatures in both sessions, with the same text, or it holds one and the same value,
or nothing. -/
theorem Alike.get?_cases (h : s.Alike s') (slot : Slot) :
    (∃ x x', s.get? slot = some (.signature x) ∧ s'.get? slot = some (.signature x') ∧
        x.unleveled = x'.unleveled) ∨
      s'.get? slot = s.get? slot := by
  rcases map_eq_map_cases (h.get? slot) with ⟨hv, hv'⟩ | ⟨v, v', hv, hv', heq⟩
  · rw [hv, hv']
    exact Or.inr rfl
  · rw [hv, hv']
    rcases v with x | it | it | p | y <;> rcases v' with x' | it' | it' | p' | y' <;>
      simp [Value.unleveled] at heq
    · exact Or.inl ⟨x, x', rfl, rfl, heq⟩
    · exact Or.inr (by rw [heq])
    · exact Or.inr (by rw [heq])
    · exact Or.inr (by rw [heq])
    · exact Or.inr (by rw [heq])

theorem Alike.signature? (h : s.Alike s') (slot : Slot) :
    (s.signature? slot).map Signature.unleveled = (s'.signature? slot).map Signature.unleveled := by
  rw [Session.signature?, Session.signature?]
  rcases h.get?_cases slot with ⟨x, x', hx, hx', heq⟩ | heq
  · rw [hx, hx']
    exact congrArg some heq
  · rw [heq]

theorem Alike.put {v w : Value} (h : s.Alike s') (slot : Slot)
    (hv : v.unleveled = w.unleveled) : (s.put slot v).Alike (s'.put slot w) := by
  refine ⟨?_, h.set, h.size⟩
  have hkeep : ∀ slots : List (Slot × Value),
      (slots.filter (·.1 != slot)).map (Prod.map id Value.unleveled) =
        (slots.map (Prod.map id Value.unleveled)).filter (·.1 != slot) := by
    intro slots
    rw [List.filter_map]
    rfl
  show (slot, v.unleveled) :: _ = (slot, w.unleveled) :: _
  rw [hkeep, hkeep, h.slots, hv]

theorem Alike.erase (h : s.Alike s') (slot : Slot) : (s.erase slot).Alike (s'.erase slot) := by
  refine ⟨?_, h.set, h.size⟩
  have hput : (s.put slot (.signature .empty)).Alike (s'.put slot (.signature .empty)) :=
    h.put slot rfl
  exact (List.cons.inj hput.slots).2

theorem answer_unleveled {v w : Value} (hv : v.unleveled = w.unleveled) :
    v.answer.unleveled = w.answer.unleveled := by
  have key : ∀ v : Value, v.answer.unleveled = v.unleveled.answer.unleveled := by
    intro v
    cases v <;> rfl
  rw [key v, hv, ← key w]

theorem Alike.store {v w : Value} (h : s.Alike s') (dest : Option Slot)
    (hv : v.unleveled = w.unleveled) : AlikeWith (s.store dest v) (s'.store dest w) := by
  refine ⟨?_, answer_unleveled hv⟩
  cases dest with
  | none => exact h
  | some slot => exact h.put slot hv

theorem Alike.storeNew (h : s.Alike s') (dest : Option Slot) (r : Except BuildError Signature) :
    AlikeWith (s.storeNew dest r) (s'.storeNew dest r) := by
  cases r with
  | ok x => exact h.store dest rfl
  | error e => exact ⟨h, rfl⟩

theorem Alike.storeRead (h : s.Alike s') (dest : Option Slot) (r : Except ReadError Signature) :
    AlikeWith (s.storeRead dest r) (s'.storeRead dest r) := by
  cases r with
  | ok x => exact h.store dest rfl
  | error e => exact ⟨h, rfl⟩

theorem Alike.storeNext (h : s.Alike s') (dest : Option Slot) (v? : Option Value) :
    AlikeWith (s.storeNext dest v?) (s'.storeNext dest v?) := by
  cases v? with
  | some v => exact h.store dest rfl
  | none => exact ⟨h, rfl⟩

theorem Alike.withSignature {f f' : Signature → Session × Answer} (h : s.Alike s') (slot : Slot)
    (hf : ∀ x x', x.unleveled = x'.unleveled → AlikeWith (f x) (f' x')) :
    AlikeWith (s.withSignature slot f) (s'.withSignature slot f') := by
  rw [Session.withSignature, Session.withSignature]
  rcases map_eq_map_cases (h.signature? slot) with ⟨hx, hx'⟩ | ⟨x, x', hx, hx', heq⟩
  · rw [hx, hx']
    exact ⟨h, rfl⟩
  · rw [hx, hx']
    exact hf x x' heq

/-- The fields of a struct are found in both sessions, with the same texts, or in neither. -/
theorem Alike.fields (h : s.Alike s') (fields : List Slot) :
    (fields.mapM s.signature?).map (·.flatMap (·.text)) =
      (fields.mapM s'.signature?).map (·.flatMap (·.text)) := by
  induction fields with
  | nil => rfl
  | cons slot fields ih =>
    rw [List.mapM_cons, List.mapM_cons]
    rcases map_eq_map_cases (h.signature? slot) with ⟨hx, hx'⟩ | ⟨x, x', hx, hx', heq⟩
    · rw [hx, hx']
      rfl
    · rw [hx, hx']
      rcases map_eq_map_cases ih with ⟨hxs, hxs'⟩ | ⟨xs, xs', hxs, hxs', heqs⟩
      · rw [hxs, hxs']
        rfl
      · rw [hxs, hxs']
        simp [Signature.unleveled_eq_iff.mp heq, heqs]

/-! ## The set -/

variable {x x' : Signature}

/-- An element is in both sets or in neither, whatever level it is looked up with. -/
theorem Alike.mem_iff (h : s.Alike s') (heq : x.unleveled = x'.unleveled) :
    x ∈ s.set ↔ x' ∈ s'.set :=
  (h.set x).trans (Std.HashSet.mem_congr (Signature.beq_of_unleveled heq))

theorem Alike.contains (h : s.Alike s') (heq : x.unleveled = x'.unleveled) :
    s.set.contains x = s'.set.contains x' := by
  rw [Bool.eq_iff_iff, ← Std.HashSet.mem_iff_contains, ← Std.HashSet.mem_iff_contains]
  exact h.mem_iff heq

theorem Alike.beq_eq (heq : x.unleveled = x'.unleveled) (y : Signature) : (x == y) = (x' == y) := by
  rw [Bool.eq_iff_iff, Signature.beq_iff, Signature.beq_iff, Signature.unleveled_eq_iff.mp heq]

theorem Alike.insert (h : s.Alike s') (heq : x.unleveled = x'.unleveled) :
    Alike { s with set := s.set.insert x } { s' with set := s'.set.insert x' } := by
  refine ⟨h.slots, ?_, ?_⟩
  · intro y
    rw [Std.HashSet.mem_insert, Std.HashSet.mem_insert, Alike.beq_eq heq, h.set]
  · show (s.set.insert x).size = (s'.set.insert x').size
    simp only [Std.HashSet.size_insert, h.mem_iff heq, h.size]

theorem Alike.remove (h : s.Alike s') (heq : x.unleveled = x'.unleveled) :
    Alike { s with set := s.set.erase x } { s' with set := s'.set.erase x' } := by
  refine ⟨h.slots, ?_, ?_⟩
  · intro y
    rw [Std.HashSet.mem_erase, Std.HashSet.mem_erase, Alike.beq_eq heq, h.set]
  · show (s.set.erase x).size = (s'.set.erase x').size
    simp only [Std.HashSet.size_erase, h.mem_iff heq, h.size]

/-- What is found has the text that is looked for. -/
theorem text_of_get? {set : Std.HashSet Signature} {x y : Signature} (h : set.get? x = some y) :
    y.text = x.text := by
  have hall := Std.HashSet.get?_beq (m := set) (k := x)
  rw [h] at hall
  exact (Signature.beq_iff y x).mp hall

/-- The same element is found in both sets, but for its level. -/
theorem Alike.find (h : s.Alike s') (heq : x.unleveled = x'.unleveled) :
    (s.set.get? x).map Signature.unleveled = (s'.set.get? x').map Signature.unleveled := by
  rcases hy : s.set.get? x with _ | y <;> rcases hy' : s'.set.get? x' with _ | y'
  · rfl
  · have hmem := (h.mem_iff heq).mpr (Std.HashSet.isSome_get?_iff_mem.mp (by simp [hy']))
    simp [Std.HashSet.get?_eq_none, ← Std.HashSet.isSome_get?_iff_mem, hy] at hmem
  · have hmem := (h.mem_iff heq).mp (Std.HashSet.isSome_get?_iff_mem.mp (by simp [hy]))
    simp [← Std.HashSet.isSome_get?_iff_mem, hy'] at hmem
  · refine congrArg some (Signature.unleveled_eq_iff.mpr ?_)
    rw [text_of_get? hy, text_of_get? hy', Signature.unleveled_eq_iff.mp heq]

/-! ## Steps -/

theorem step_equal (s : Session) (a b : Slot) :
    s.step (.equal a b) = (s, Value.compared (s.get? a) (s.get? b)) := by
  rw [step]
  rcases s.get? a with _ | (x | it | it | p | y) <;>
    rcases s.get? b with _ | (x' | it' | it' | p' | y') <;> rfl

/-- Values are compared without their levels. -/
theorem compared_unleveled (v w : Option Value) :
    Value.compared v w = Value.compared (v.map Value.unleveled) (w.map Value.unleveled) := by
  rcases v with _ | (x | it | it | p | y) <;> rcases w with _ | (x | it | it | p | y) <;> rfl

/-- **A step that differs in its level only keeps two sessions alike**, and gives them the same answer
but for the level. -/
theorem Alike.step (h : s.Alike s') (x : Step) : AlikeWith (s.step x) (s'.step x.unleveled) := by
  -- No operation reads the level of a signature, so each makes the same of it without.
  cases x with
  | new origin dest => exact h.storeNew dest origin.signature
  | level source level dest =>
    refine h.withSignature source fun x x' heq => h.store dest ?_
    exact congrArg Value.signature heq
  | read source => exact h.withSignature source fun x x' heq => ⟨h, congrArg Answer.signature heq⟩
  | array source dest =>
    refine h.withSignature source fun x x' heq => ?_
    show AlikeWith (s.storeNew dest (Signature.array x.unleveled))
      (s'.storeNew dest (Signature.array x'.unleveled))
    rw [heq]
    exact h.storeNew dest _
  | dict key value dest =>
    refine h.withSignature key fun k k' hk => h.withSignature value fun v v' hv => ?_
    show AlikeWith (s.storeNew dest (Signature.dict k.unleveled v.unleveled))
      (s'.storeNew dest (Signature.dict k'.unleveled v'.unleveled))
    rw [hk, hv]
    exact h.storeNew dest _
  | struct fields dest =>
    have hfields := h.fields fields
    show AlikeWith (s.step (.struct fields dest)) (s'.step (.struct fields dest))
    rw [Session.step, Session.step]
    rcases map_eq_map_cases hfields with ⟨hxs, hxs'⟩ | ⟨xs, xs', hxs, hxs', heq⟩
    · rw [hxs, hxs']
      exact ⟨h, rfl⟩
    · have hr : Signature.struct xs' = Signature.struct xs := by
        rw [Signature.struct, Signature.struct, heq]
      rw [hxs, hxs']
      show AlikeWith (s.storeNew dest (Signature.struct xs))
        (s'.storeNew dest (Signature.struct xs'))
      rw [hr]
      exact h.storeNew dest _
  | portions source dest =>
    refine h.withSignature source fun x x' heq => h.store dest ?_
    show Value.portions x.unleveled.portions = Value.portions x'.unleveled.portions
    rw [heq]
  | excerpts source dest =>
    refine h.withSignature source fun x x' heq => h.store dest ?_
    show Value.excerpts x.unleveled.excerpts = Value.excerpts x'.unleveled.excerpts
    rw [heq]
  | iterate limits text dest =>
    show AlikeWith (s.step (.iterate limits text dest)) (s'.step (.iterate limits text dest))
    rw [Session.step, Session.step]
    split
    · exact h.store dest rfl
    · exact ⟨h, rfl⟩
  | next source dest =>
    show AlikeWith (s.step (.next source dest)) (s'.step (.next source dest))
    rw [Session.step, Session.step]
    rcases h.get?_cases source with ⟨x, x', hx, hx', -⟩ | heq
    · rw [hx, hx']
      exact ⟨h, rfl⟩
    · rw [heq]
      split
      · exact (h.put source rfl).storeNext dest _
      · exact (h.put source rfl).storeNext dest _
      · exact ⟨h, rfl⟩
  | rest source =>
    show AlikeWith (s.step (.rest source)) (s'.step (.rest source))
    rw [Session.step, Session.step]
    rcases h.get?_cases source with ⟨x, x', hx, hx', -⟩ | heq
    · rw [hx, hx']
      exact ⟨h, rfl⟩
    · rw [heq]
      split
      · exact ⟨h.put source rfl, rfl⟩
      · exact ⟨h.put source rfl, rfl⟩
      · exact ⟨h, rfl⟩
  | clone source dest =>
    show AlikeWith (s.step (.clone source dest)) (s'.step (.clone source dest))
    rw [Session.step, Session.step]
    rcases h.get?_cases source with ⟨x, x', hx, hx', heq⟩ | heq
    · rw [hx, hx']
      exact h.store dest (congrArg Value.signature heq)
    · rw [heq]
      split
      · exact h.store dest rfl
      · exact ⟨h, rfl⟩
  | children source dest =>
    show AlikeWith (s.step (.children source dest)) (s'.step (.children source dest))
    rw [Session.step, Session.step]
    rcases h.get?_cases source with ⟨x, x', hx, hx', -⟩ | heq
    · rw [hx, hx']
      exact ⟨h, rfl⟩
    · rw [heq]
      split
      · exact h.store dest rfl
      · exact h.store dest rfl
      · exact ⟨h, rfl⟩
  | toSignature source dest =>
    show AlikeWith (s.step (.toSignature source dest)) (s'.step (.toSignature source dest))
    rw [Session.step, Session.step]
    rcases h.get?_cases source with ⟨x, x', hx, hx', -⟩ | heq
    · rw [hx, hx']
      exact ⟨h, rfl⟩
    · rw [heq]
      split
      · exact h.store dest rfl
      · exact ⟨h, rfl⟩
  | equal a b =>
    show AlikeWith (s.step (.equal a b)) (s'.step (.equal a b))
    rw [step_equal, step_equal]
    refine ⟨h, ?_⟩
    show (Value.compared (s.get? a) (s.get? b)).unleveled = _
    rw [compared_unleveled, h.get? a, h.get? b, ← compared_unleveled]
  | insert source =>
    refine h.withSignature source fun x x' heq => ⟨h.insert heq, ?_⟩
    show Answer.inserted _ _ = Answer.inserted _ _
    rw [h.contains heq, (h.insert heq).size]
  | find source =>
    refine h.withSignature source fun x x' heq => ⟨h, ?_⟩
    have hfound : ∀ found : Option Signature, (found.elim .nothing .signature : Answer).unleveled =
        (found.map Signature.unleveled).elim .nothing .signature := by
      intro found
      cases found <;> rfl
    show ((s.set.get? x).elim Answer.nothing .signature).unleveled =
      ((s'.set.get? x').elim Answer.nothing .signature).unleveled
    rw [hfound, hfound, h.find heq]
  | remove source =>
    refine h.withSignature source fun x x' heq => ⟨h.remove heq, ?_⟩
    show Answer.removed _ _ = Answer.removed _ _
    rw [h.contains heq, (h.remove heq).size]
  | deserialize value dest => exact h.storeRead dest (Signature.ofJson value)
  | roundTrip source dest =>
    refine h.withSignature source fun x x' heq => ?_
    show AlikeWith (s.storeRead dest (Signature.ofJson x.unleveled.toJson))
      (s'.storeRead dest (Signature.ofJson x'.unleveled.toJson))
    rw [heq]
    exact h.storeRead dest _
  | drop source =>
    refine ⟨h.erase source, ?_⟩
    show Answer.dropped _ = Answer.dropped _
    rw [← Option.isSome_map (f := Value.unleveled), h.get? source, Option.isSome_map]

/-- **All steps keep two sessions alike**, and give them the same answers but for levels. -/
theorem Alike.run (h : s.Alike s') {xs ys : List Step}
    (hsteps : xs.map Step.unleveled = ys.map Step.unleveled) :
    (s.run xs).1.Alike (s'.run ys).1 ∧
      (s.run xs).2.map Answer.unleveled = (s'.run ys).2.map Answer.unleveled := by
  induction xs generalizing s s' ys with
  | nil =>
    obtain rfl : ys = [] := List.map_eq_nil_iff.mp hsteps.symm
    exact ⟨h, rfl⟩
  | cons x xs ih =>
    obtain ⟨y, ys, rfl, hy, hys⟩ := List.map_eq_cons_iff.mp hsteps.symm
    -- Both steps are compared with the one that gives the level 0.
    obtain ⟨hx, hax⟩ := h.step x
    obtain ⟨hy', hay⟩ := (Alike.refl s').step y
    rw [hy] at hy' hay
    obtain ⟨hrest, hanswers⟩ := ih (hx.trans hy'.symm) hys.symm
    refine ⟨hrest, ?_⟩
    rw [Session.run, Session.run, List.map_cons, List.map_cons, hax, hay, hanswers]

/-! ## What is made -/

theorem eq_ok_of_storeNew {dest : Option Slot} {r : Except BuildError Signature}
    (h : (s.storeNew dest r).2 = .signature x) : r = .ok x := by
  cases r with
  | ok y => exact congrArg Except.ok (Answer.signature.inj h)
  | error e => simp [Session.storeNew] at h

theorem eq_ok_of_storeRead {dest : Option Slot} {r : Except ReadError Signature}
    (h : (s.storeRead dest r).2 = .signature x) : r = .ok x := by
  cases r with
  | ok y => exact congrArg Except.ok (Answer.signature.inj h)
  | error e => simp [Session.storeRead] at h

/-- What is answered for a signature is answered for the one in the slot. -/
theorem exists_of_withSignature {slot : Slot} {f : Signature → Session × Answer}
    (h : (s.withSignature slot f).2 = .signature x) : ∃ y, (f y).2 = .signature x := by
  unfold Session.withSignature at h
  split at h
  · next y _ => exact ⟨y, h⟩
  · simp at h

/-- **What a step makes has level 0**, whatever it is made of. -/
theorem level_of_makes {step : Step} (hm : step.Makes) (h : (s.step step).2 = .signature x) :
    x.level = 0 := by
  cases step with
  | new origin dest => exact Signature.level_of_origin (eq_ok_of_storeNew h)
  | array source dest =>
    obtain ⟨e, h⟩ := exists_of_withSignature h
    exact Signature.level_of_within (Signature.array_ok_iff.mp (eq_ok_of_storeNew h)).2
  | dict key value dest =>
    obtain ⟨k, h⟩ := exists_of_withSignature h
    obtain ⟨v, h⟩ := exists_of_withSignature h
    exact Signature.level_of_within (Signature.dict_ok_iff.mp (eq_ok_of_storeNew h)).2.2
  | struct fields dest =>
    rw [Session.step] at h
    split at h
    · exact Signature.level_of_within (Signature.struct_ok_iff.mp (eq_ok_of_storeNew h)).2
    · simp at h
  | toSignature source dest =>
    rw [Session.step] at h
    split at h
    · obtain rfl := Answer.signature.inj h
      rfl
    · simp at h
  | deserialize value dest =>
    obtain ⟨text, -, ht⟩ := Signature.ofJson_ok_iff.mp (eq_ok_of_storeRead h)
    exact Signature.level_of_within ht
  | roundTrip source dest =>
    obtain ⟨y, h⟩ := exists_of_withSignature h
    obtain ⟨text, -, ht⟩ := Signature.ofJson_ok_iff.mp (eq_ok_of_storeRead h)
    exact Signature.level_of_within ht
  | level | read | portions | excerpts | iterate | next | rest | clone | children | equal | insert
  | find | remove | drop => exact hm.elim

end Session

/-- **Levels make no difference to any answer.** Let two sessions take the same steps but for the
levels they give. Then their slots hold the same values but for levels, their sets have the same
elements, signatures are written as the same JSON, and each step gives the same answer once the level
shown in it is taken away. What is made of a text, of other signatures, of an item or of JSON has
level 0, whatever the levels of what it is made of. -/
theorem levels_inert (xs ys : List Step) (h : xs.map Step.unleveled = ys.map Step.unleveled) :
    (Session.new.run xs).1.Alike (Session.new.run ys).1 ∧
      (∀ slot x y, (Session.new.run xs).1.signature? slot = some x →
        (Session.new.run ys).1.signature? slot = some y → x.toJson = y.toJson) ∧
      (Session.new.run xs).2.map Answer.unleveled = (Session.new.run ys).2.map Answer.unleveled ∧
      ∀ (s : Session) (step : Step), step.Makes → ∀ x, (s.step step).2 = .signature x → x.level = 0 := by
  obtain ⟨hsessions, hanswers⟩ := (Session.Alike.refl Session.new).run h
  refine ⟨hsessions, ?_, hanswers, fun s step hm x => Session.level_of_makes hm⟩
  intro slot x y hx hy
  have hslot := hsessions.signature? slot
  rw [hx, hy] at hslot
  have htext := Signature.unleveled_eq_iff.mp (Option.some.inj hslot)
  rw [Signature.toJson, Signature.toJson, htext]

/-- A signature that is put into the set at level 3, or at level 9, is what is found there of the same
signature at level 0, and it is equal to that. -/
theorem levels_inert_set :
    ([.new .empty (some "a"), .level "a" 3 (some "b"), .insert "b", .insert "a", .find "a",
        .equal "a" "b"] : List Step).map Step.unleveled =
      ([.new .empty (some "a"), .level "a" 9 (some "b"), .insert "b", .insert "a", .find "a",
        .equal "a" "b"] : List Step).map Step.unleveled ∧
    (Session.new.run [.new .empty (some "a"), .level "a" 3 (some "b"), .insert "b", .insert "a",
        .find "a", .equal "a" "b"]).2.map Answer.unleveled =
      (Session.new.run [.new .empty (some "a"), .level "a" 9 (some "b"), .insert "b", .insert "a",
        .find "a", .equal "a" "b"]).2.map Answer.unleveled := by
  have h : ([.new .empty (some "a"), .level "a" 3 (some "b"), .insert "b", .insert "a", .find "a",
        .equal "a" "b"] : List Step).map Step.unleveled =
      ([.new .empty (some "a"), .level "a" 9 (some "b"), .insert "b", .insert "a", .find "a",
        .equal "a" "b"] : List Step).map Step.unleveled := rfl
  exact ⟨h, (levels_inert _ _ h).2.2.1⟩

end DBusTypes
