import Mathlib.Data.List.DropRight
import Mathlib.Data.Set.Card
import DBusTypes.Proofs.Levels

/-!
# What a set of signatures keeps

A set finds a signature by its text, and it keeps the one it has when an equal one comes. So it is a
map: a text that is in the set leads to the signature that came first with that text, and to the level
which that one had.

1. What is done with a set is a list of steps (`SetStep`), and which signature of a text came first is
   read off that list (`SetStep.firstInserted`), without a set.
2. One more step changes the first signature of a text and the set in the same way
   (`SetStep.firstInserted_concat`, `SetStep.get?_after`).
3. Hence the set holds the first signatures and nothing else (`SetStep.mem_after_iff`), and it is as
   large as there are texts that were put in last (`SetStep.size_after`).
4. What a session does with its set are such steps (`Session.set_run`).

The main statement is `first_stored`.
-/

namespace DBusTypes

/-! ## Steps on a set -/

/-- What can be done with a set of signatures. -/
inductive SetStep where
  | insert (x : Signature)
  | remove (x : Signature)
  | find (x : Signature)

/-- Whether an answer says that a set is no longer what it was. -/
def Answer.isEffect : Answer → Bool
  | .inserted new _ => new
  | .removed present _ => present
  | _ => false

namespace SetStep

def text : SetStep → Bytes
  | insert x | remove x | find x => x.text

/-- What a step makes of a set, and the answer it gives. -/
def on (set : Std.HashSet Signature) : SetStep → Std.HashSet Signature × Answer
  | insert x => (set.insert x, .inserted (!set.contains x) (set.insert x).size)
  | remove x => (set.erase x, .removed (set.contains x) (set.erase x).size)
  | find x => (set, (set.get? x).elim .nothing .signature)

/-- What steps make of a set. -/
def onAll (set : Std.HashSet Signature) (steps : List SetStep) : Std.HashSet Signature :=
  steps.foldl (fun set step => (step.on set).1) set

/-- The set after some steps, which was empty before them. -/
def after (steps : List SetStep) : Std.HashSet Signature := onAll ∅ steps

/-- The steps that change the set, each as it is then. -/
def effectiveFrom (set : Std.HashSet Signature) : List SetStep → List SetStep
  | [] => []
  | step :: steps =>
    let r := step.on set
    if r.2.isEffect then step :: effectiveFrom r.1 steps else effectiveFrom r.1 steps

/-! ## What the steps say of a text -/

/-- Whether a step removes a text. -/
def removes (t : Bytes) : SetStep → Bool
  | remove x => x.text == t
  | _ => false

/-- The signature that a step inserts, if it has a text. -/
def inserted? (t : Bytes) : SetStep → Option Signature
  | insert x => if x.text = t then some x else none
  | _ => none

/-- The signature with a text that was inserted first since that text was last removed. -/
def firstInserted (steps : List SetStep) (t : Bytes) : Option Signature :=
  (steps.rtakeWhile (!·.removes t)).findSome? (inserted? t)

/-- The last step with a text that changed the set, which was empty before the first. -/
def lastEffective (steps : List SetStep) (t : Bytes) : Option SetStep :=
  (effectiveFrom ∅ steps).reverse.find? (·.text == t)

variable {steps : List SetStep} {step : SetStep} {t : Bytes} {x y : Signature}

theorem text_of_firstInserted (h : firstInserted steps t = some x) : x.text = t := by
  obtain ⟨step, -, hx⟩ := List.exists_of_findSome?_eq_some h
  cases step with
  | insert y =>
    rw [inserted?] at hx
    split at hx
    · next ht =>
      obtain rfl := Option.some.inj hx
      exact ht
    · simp at hx
  | remove y | find y => simp [inserted?] at hx

/-! ## One more step -/

theorem onAll_concat (set : Std.HashSet Signature) (steps : List SetStep) (step : SetStep) :
    onAll set (steps ++ [step]) = (step.on (onAll set steps)).1 :=
  List.foldl_append

theorem after_concat (steps : List SetStep) (step : SetStep) :
    after (steps ++ [step]) = (step.on (after steps)).1 := onAll_concat ∅ steps step

theorem firstInserted_concat (steps : List SetStep) (step : SetStep) (t : Bytes) :
    firstInserted (steps ++ [step]) t =
      if step.removes t then none else (firstInserted steps t).or (step.inserted? t) := by
  rw [firstInserted, List.rtakeWhile_concat]
  cases step.removes t with
  | true => rfl
  | false =>
    simp only [Bool.not_false, if_true, List.findSome?_append, List.findSome?_singleton]
    rfl

theorem effectiveFrom_concat (set : Std.HashSet Signature) (steps : List SetStep)
    (step : SetStep) : effectiveFrom set (steps ++ [step]) =
      effectiveFrom set steps ++ if (step.on (onAll set steps)).2.isEffect then [step] else [] := by
  induction steps generalizing set with
  | nil => rfl
  | cons s steps ih =>
    rw [List.cons_append, effectiveFrom, effectiveFrom]
    simp only [ih]
    split <;> rfl

theorem lastEffective_concat (steps : List SetStep) (step : SetStep) (t : Bytes) :
    lastEffective (steps ++ [step]) t =
      if (step.on (after steps)).2.isEffect ∧ step.text = t then some step
      else lastEffective steps t := by
  rw [lastEffective, effectiveFrom_concat]
  show List.find? _ (_ ++ if (step.on (after steps)).2.isEffect then [step] else []).reverse = _
  by_cases he : (step.on (after steps)).2.isEffect = true
  · by_cases ht : step.text = t
    · simp [he, ht]
    · simp [he, ht, lastEffective]
  · simp [he, lastEffective]

/-! ## What the set holds -/

/-- **A lookup gives the signature that was inserted first** since its text was last removed. -/
theorem get?_after (steps : List SetStep) (y : Signature) :
    (after steps).get? y = firstInserted steps y.text := by
  induction steps using List.reverseRecOn generalizing y with
  | nil => exact Std.HashSet.get?_empty
  | append_singleton steps step ih =>
    rw [after_concat, firstInserted_concat]
    cases step with
    | insert x =>
      show ((after steps).insert x).get? y =
        (firstInserted steps y.text).or (if x.text = y.text then some x else none)
      simp only [Std.HashSet.get?_insert, Signature.beq_iff, ih]
      by_cases ht : x.text = y.text
      · have hmem : x ∉ after steps ↔ firstInserted steps y.text = none := by
          rw [← Std.HashSet.isSome_get?_iff_mem, ih, ht, Option.not_isSome_iff_eq_none]
        cases hf : firstInserted steps y.text with
        | none => rw [if_pos ⟨ht, hmem.mpr hf⟩, if_pos ht, Option.none_or]
        | some z =>
          rw [if_neg fun h => by simp [hmem.mp h.2] at hf, Option.some_or]
      · rw [if_neg fun h => ht h.1, if_neg ht, Option.or_none]
    | remove x =>
      show ((after steps).erase x).get? y =
        if (x.text == y.text) = true then none else (firstInserted steps y.text).or none
      simp only [Std.HashSet.get?_erase, Signature.beq_iff, beq_iff_eq, ih, Option.or_none]
    | find x => exact (ih y).trans (Option.or_none).symm

theorem contains_after (steps : List SetStep) (x : Signature) :
    (after steps).contains x = (firstInserted steps x.text).isSome := by
  rw [Std.HashSet.contains_eq_isSome_get?, get?_after]

/-- An element of a set is what is found of it. -/
theorem mem_toList_iff {set : Std.HashSet Signature} :
    x ∈ set.toList ↔ set.get? x = some x := by
  classical
  -- The set without all other elements still has an element just if `x` is one.
  let only : Signature → Bool := fun y => decide (y = x)
  have hlist : ∀ y, y ∈ (set.filter only).toList ↔ y ∈ set.toList ∧ y = x := by
    intro y
    rw [Std.HashSet.toList_filter.mem_iff, List.mem_filter, decide_eq_true_eq]
  have hfound : (set.filter only).contains x = true ↔ set.get? x = some x := by
    rw [Std.HashSet.contains_eq_isSome_get?, Std.HashSet.get?_filter]
    cases set.get? x with
    | none => simp
    | some y => simp [only, Option.filter]
  rw [← hfound, ← Std.HashSet.contains_toList, List.contains_iff_exists_mem_beq]
  constructor
  · intro hx
    exact ⟨x, (hlist x).mpr ⟨hx, rfl⟩, BEq.rfl⟩
  · rintro ⟨y, hy, -⟩
    obtain ⟨hmem, rfl⟩ := (hlist y).mp hy
    exact hmem

/-- **The set holds the first signatures**, and nothing else. -/
theorem mem_after_iff : x ∈ (after steps).toList ↔ firstInserted steps x.text = some x := by
  rw [mem_toList_iff, get?_after]

/-- No two elements have the same text. -/
theorem pairwise_after (steps : List SetStep) :
    (after steps).toList.Pairwise fun a b => a.text ≠ b.text := by
  refine Std.HashSet.distinct_toList.imp ?_
  intro a b hab heq
  rw [(Signature.beq_iff a b).mpr heq] at hab
  simp at hab

/-! ## How large the set is -/

/-- The last step that changed anything about a text inserted the signature which came first. -/
theorem lastEffective_eq_insert_iff :
    lastEffective steps t = some (insert x) ↔ firstInserted steps t = some x := by
  induction steps using List.reverseRecOn with
  | nil => simp [lastEffective, effectiveFrom, firstInserted]
  | append_singleton steps step ih =>
    rw [lastEffective_concat, firstInserted_concat]
    cases step with
    | insert y =>
      have he : ((insert y).on (after steps)).2.isEffect = (firstInserted steps y.text).isNone := by
        show (!(after steps).contains y) = _
        rw [contains_after, Option.not_isSome]
      rw [he]
      show (if _ ∧ y.text = t then _ else _) = _ ↔
        (firstInserted steps t).or (if y.text = t then some y else none) = _
      by_cases ht : y.text = t
      · subst ht
        cases hf : firstInserted steps y.text with
        | none => simp
        | some z => simpa [hf] using ih
      · simpa [ht] using ih
    | remove y =>
      have he : ((remove y).on (after steps)).2.isEffect = (firstInserted steps y.text).isSome :=
        contains_after steps y
      rw [he]
      show (if _ ∧ y.text = t then _ else _) = _ ↔
        (if (y.text == t) = true then none else (firstInserted steps t).or none) = _
      by_cases ht : y.text = t
      · subst ht
        cases hf : firstInserted steps y.text with
        | none => simpa [hf] using ih
        | some z => simp
      · simpa [ht] using ih
    | find y =>
      have he : ((find y).on (after steps)).2.isEffect = false := by
        show ((after steps).get? y |>.elim Answer.nothing .signature).isEffect = false
        cases (after steps).get? y <;> rfl
      rw [he]
      show _ ↔ (firstInserted steps t).or none = _
      simpa using ih

/-- **The set has as many elements as there are texts that were inserted** by the last step that
changed anything about them. -/
theorem size_after (steps : List SetStep) :
    (after steps).size = {t | ∃ x, lastEffective steps t = some (insert x)}.ncard := by
  let texts := (after steps).toList.map (·.text)
  have hset : {t | ∃ x, lastEffective steps t = some (insert x)} = (texts.toFinset : Set Bytes) := by
    ext t
    simp only [Set.mem_ofPred_eq, lastEffective_eq_insert_iff, texts, List.coe_toFinset,
      List.mem_map, mem_after_iff]
    constructor
    · rintro ⟨x, hx⟩
      obtain rfl := text_of_firstInserted hx
      exact ⟨x, hx, rfl⟩
    · rintro ⟨x, hx, rfl⟩
      exact ⟨x, hx⟩
  have hnodup : texts.Nodup := (pairwise_after steps).map _ fun _ _ h => h
  rw [hset, Set.ncard_coe_finset, List.toFinset_card_of_nodup hnodup, List.length_map,
    Std.HashSet.length_toList]

end SetStep

/-! ## Sessions -/

namespace Session

/-- What a step of a session does with its set. -/
def setStep? (s : Session) : Step → Option SetStep
  | .insert source => (s.signature? source).map .insert
  | .remove source => (s.signature? source).map .remove
  | .find source => (s.signature? source).map .find
  | _ => none

/-- What the steps of a session do with its set, in order. -/
def setSteps (s : Session) : List Step → List SetStep
  | [] => []
  | x :: xs => (s.setStep? x).toList ++ (s.step x).1.setSteps xs

variable {s : Session}

theorem set_store (dest : Option Slot) (v : Value) : (s.store dest v).1.set = s.set := by
  cases dest <;> rfl

theorem set_storeNew (dest : Option Slot) (r : Except BuildError Signature) :
    (s.storeNew dest r).1.set = s.set := by
  cases r with
  | ok x => exact set_store dest _
  | error e => rfl

theorem set_storeRead (dest : Option Slot) (r : Except ReadError Signature) :
    (s.storeRead dest r).1.set = s.set := by
  cases r with
  | ok x => exact set_store dest _
  | error e => rfl

theorem set_storeNext (dest : Option Slot) (v : Option Value) :
    (s.storeNext dest v).1.set = s.set := by
  cases v with
  | some v => exact set_store dest v
  | none => rfl

theorem set_withSignature {slot : Slot} {f : Signature → Session × Answer}
    (h : ∀ x, (f x).1.set = s.set) : (s.withSignature slot f).1.set = s.set := by
  unfold withSignature
  split
  · exact h _
  · rfl

/-- What is done with the set through the signature in a slot is a step on the set. -/
theorem step_eq_on {x : Step} {step : SetStep} (h : s.setStep? x = some step) :
    (s.step x).1.set = (step.on s.set).1 ∧ (s.step x).2 = (step.on s.set).2 := by
  cases x with
  | insert source | remove source | find source =>
    obtain ⟨x, hx, rfl⟩ := Option.map_eq_some_iff.mp h
    rw [Session.step, withSignature, hx]
    exact ⟨rfl, rfl⟩
  | new | level | read | array | dict | struct | portions | excerpts | iterate | next | rest | clone
  | children | toSignature | equal | deserialize | roundTrip | drop => simp [setStep?] at h

/-- No other step changes the set. -/
theorem step_eq_of_none {x : Step} (h : s.setStep? x = none) : (s.step x).1.set = s.set := by
  cases x with
  | insert source | remove source | find source =>
    rw [Session.step, withSignature, Option.map_eq_none_iff.mp h]
  | new origin dest => exact set_storeNew dest _
  | level source level dest => exact set_withSignature fun _ => set_store dest _
  | read source => exact set_withSignature fun _ => rfl
  | array source dest => exact set_withSignature fun _ => set_storeNew dest _
  | dict key value dest =>
    exact set_withSignature fun _ => set_withSignature fun _ => set_storeNew dest _
  | portions source dest | excerpts source dest =>
    exact set_withSignature fun _ => set_store dest _
  | deserialize value dest => exact set_storeRead dest _
  | roundTrip source dest => exact set_withSignature fun _ => set_storeRead dest _
  | drop source => rfl
  | struct fields dest =>
    rw [Session.step]
    split
    · exact set_storeNew dest _
    · rfl
  | iterate limits text dest =>
    rw [Session.step]
    split
    · exact set_store dest _
    · rfl
  | next source dest =>
    rw [Session.step]
    split
    · exact set_storeNext dest _
    · exact set_storeNext dest _
    · rfl
  | rest source =>
    rw [Session.step]
    split <;> rfl
  | clone source dest | toSignature source dest =>
    rw [Session.step]
    split
    · exact set_store dest _
    · rfl
  | children source dest =>
    rw [Session.step]
    split
    · exact set_store dest _
    · exact set_store dest _
    · rfl
  | equal a b =>
    rw [step_equal]

/-- **The set of a session is what its steps on the set make of it.** -/
theorem set_run (s : Session) (xs : List Step) :
    (s.run xs).1.set = SetStep.onAll s.set (s.setSteps xs) := by
  induction xs generalizing s with
  | nil => rfl
  | cons x xs ih =>
    rw [run, setSteps]
    show ((s.step x).1.run xs).1.set = _
    rw [ih]
    cases h : s.setStep? x with
    | some step => rw [(step_eq_on h).1]; rfl
    | none => rw [step_eq_of_none h]; rfl

end Session

/-- **A set of signatures keeps, for each text, the signature that came first.** Whatever is done with a
set that was empty:

* no two of its elements have the same text, and its elements are, for each text, the signature that was
  inserted first since the text was last removed;
* it has as many elements as there are texts of which the last step that changed the set was an
  insertion;
* an insertion says that the text is new just if it is not in the set, a removal that it was there just
  if it is, and a lookup gives the signature that was inserted first, with the level of that one.

The set of a session is what some such steps make of it, and the session answers as they do. -/
theorem first_stored (steps : List SetStep) :
    (SetStep.after steps).toList.Pairwise (fun a b => a.text ≠ b.text) ∧
    (∀ x, x ∈ (SetStep.after steps).toList ↔ SetStep.firstInserted steps x.text = some x) ∧
    (SetStep.after steps).size =
      {t | ∃ x, SetStep.lastEffective steps t = some (.insert x)}.ncard ∧
    (∀ x, (SetStep.on (SetStep.after steps) (.insert x)).2 =
      .inserted (SetStep.firstInserted steps x.text).isNone
        (SetStep.after (steps ++ [.insert x])).size) ∧
    (∀ x, (SetStep.on (SetStep.after steps) (.remove x)).2 =
      .removed (SetStep.firstInserted steps x.text).isSome
        (SetStep.after (steps ++ [.remove x])).size) ∧
    (∀ x, (SetStep.on (SetStep.after steps) (.find x)).2 =
      (SetStep.firstInserted steps x.text).elim .nothing .signature) ∧
    ∀ xs : List Step,
      (Session.new.run xs).1.set = SetStep.after (Session.new.setSteps xs) ∧
      ∀ x step, (Session.new.run xs).1.setStep? x = some step →
        ((Session.new.run xs).1.step x).2 =
          (step.on (SetStep.after (Session.new.setSteps xs))).2 := by
  refine ⟨SetStep.pairwise_after steps, fun x => SetStep.mem_after_iff, SetStep.size_after steps,
    ?_, ?_, ?_, ?_⟩
  · intro x
    rw [SetStep.after_concat, ← Option.not_isSome, ← SetStep.contains_after]
    rfl
  · intro x
    rw [SetStep.after_concat, ← SetStep.contains_after]
    rfl
  · intro x
    rw [← SetStep.get?_after]
    rfl
  · intro xs
    have hset : (Session.new.run xs).1.set = SetStep.after (Session.new.setSteps xs) :=
      Session.set_run Session.new xs
    refine ⟨hset, ?_⟩
    intro x step h
    rw [← hset]
    exact (Session.step_eq_on h).2

/-- Of two equal signatures at the levels 2 and 0 the set keeps the one that is put in first, and a
lookup of the other one shows the level 2. -/
theorem first_stored_lookup :
    (Session.new.run [.new .empty (some "a"), .level "a" 2 (some "b"), .insert "b",
        .insert "a"]).1.setStep? (.find "a") = some (.find ⟨[], 0⟩) ∧
      ((Session.new.run [.new .empty (some "a"), .level "a" 2 (some "b"), .insert "b",
        .insert "a"]).1.step (.find "a")).2 = .signature ⟨[], 2⟩ := by
  have hstep : (Session.new.run [.new .empty (some "a"), .level "a" 2 (some "b"), .insert "b",
      .insert "a"]).1.setStep? (.find "a") = some (.find ⟨[], 0⟩) := rfl
  obtain ⟨-, -, -, -, -, hfind, -⟩ := first_stored [.insert ⟨[], 2⟩, .insert ⟨[], 0⟩]
  obtain ⟨-, -, -, -, -, -, hsession⟩ := first_stored []
  obtain ⟨-, hanswer⟩ := hsession [.new .empty (some "a"), .level "a" 2 (some "b"), .insert "b",
    .insert "a"]
  exact ⟨hstep, (hanswer _ _ hstep).trans (hfind ⟨[], 0⟩)⟩

end DBusTypes
