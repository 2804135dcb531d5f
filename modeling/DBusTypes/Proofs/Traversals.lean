import DBusTypes.Files.Disk
import DBusTypes.Proofs.Builders
import DBusTypes.Proofs.Sessions

/-!
# All ways through a signature

The types of a signature can be gone through as parts of its text, as excerpts, or by counting. Each
of these reads the text on its own, and an iterator over parts knows an empty text to be at its end
where the others have to find out. They give the same types nevertheless, and so do any number of
iterators that are moved on in turns.

1. An iterator over parts does what the iterator over excerpts at the same place does
   (`Portions.next_excerpts`, `Portions.Sound.map_excerpt_next`), so the `k`-th call gives the same of
   both.
2. How far an iterator has come is the number of calls it had (`Session.Goes`). A call counts one more,
   and a step that neither calls nor replaces it counts none (`Session.Goes.call`,
   `Session.get?_step`).
3. By induction on the steps, the answers to the calls are the types in turn, and then nothing
   (`Session.Goes.run`).

* `Signature.Agrees` — all ways through a signature give the same types
* `traversals_agree` — **they do, and iterators do not disturb each other**
-/

namespace DBusTypes

/-! ## Parts and excerpts -/

namespace Portions

variable {it : Portions}

/-- The iterator over excerpts that is at the same place. -/
def excerpts (it : Portions) : Excerpts := ⟨it.source, it.place⟩

theorem next_excerpts (it : Portions) : it.next.2.excerpts = it.excerpts.next.2 := by
  obtain ⟨source, place⟩ := it
  rw [next, Excerpts.next, excerpts, excerpts]
  rcases place.advance source with ⟨_ | e, place'⟩ <;> rfl

/-- What is given as a part is given as an excerpt, since its text can be cut out. -/
theorem Sound.map_excerpt_next (h : it.Sound) :
    it.next.1.map Portion.excerpt = it.excerpts.next.1 := by
  have hitem := h.next.2
  obtain ⟨source, place⟩ := it
  rw [Portions.next] at hitem ⊢
  rw [Excerpts.next, excerpts]
  rcases hm : place.advance source with ⟨_ | e, place'⟩
  · rfl
  · rw [hm] at hitem
    obtain ⟨t, hslice, htext, -⟩ := (hitem _ rfl).slice
    rw [Option.map_some, Portion.excerpt, htext]
    simp only at hslice ⊢
    rw [hslice]
    rfl

theorem iterate_excerpts (it : Portions) (k : Nat) :
    ((fun it => it.next.2)^[k] it).excerpts = (fun it => it.next.2)^[k] it.excerpts := by
  have hnext : Function.Semiconj excerpts (fun it => it.next.2) (fun it => it.next.2) := next_excerpts
  exact hnext.iterate_right k it

end Portions

namespace Signature

variable {x : Signature}

/-- Whether all ways through a signature give the types that its text is put together of: as excerpts,
as parts, by counting, and by going through the text under any limits that accept it. -/
structure Agrees (x : Signature) : Prop where
  types : ∃ ts : List Ty, x.text = Ty.renderAll ts ∧
    x.excerpts.toList = Excerpts.cut 0 (ts.map .type)
  portions : x.portions.toList.map Portion.excerpt = x.excerpts.toList
  count : x.count = x.excerpts.toList.length
  single : x.isSingle = true ↔ x.excerpts.toList.length = 1
  ofBytes : ∀ limits it, Excerpts.ofBytes limits x.text = .ok it → it.toList = x.excerpts.toList

/-- There are as many types as are counted. -/
theorem Sound.count_eq (h : x.Sound) : x.count = x.excerpts.toList.length := by
  obtain ⟨-, ts, ht, hfit⟩ := h
  rw [count, ht, countTypes_renderAll hfit, toList_excerpts ht hfit, Excerpts.length_cut,
    List.length_map]

theorem Sound.agrees (h : x.Sound) : x.Agrees where
  types := by
    obtain ⟨-, ts, ht, hfit⟩ := h
    exact ⟨ts, ht, toList_excerpts ht hfit⟩
  portions := map_excerpt_portions h
  count := h.count_eq
  single := by rw [isSingle, beq_iff_eq, h.count_eq]
  ofBytes := by
    intro limits it hit
    obtain ⟨-, rfl⟩ := Excerpts.ofBytes_ok_iff.mp hit
    rfl

/-- The call after `k` others gives the type with `k` in front of it. -/
theorem Sound.excerpts_iterate (h : x.Sound) (k : Nat) :
    ((fun it => it.next.2)^[k] x.excerpts).next.1 = x.excerpts.toList[k]? := by
  obtain ⟨-, ts, ht, hfit⟩ := h
  have hb := Excerpts.between_excerpts ht hfit
  rw [Excerpts.next_iterate hb, Excerpts.toList_eq hb]

theorem Sound.portions_iterate (h : x.Sound) (k : Nat) :
    ((fun it => it.next.2)^[k] x.portions).next.1.map Portion.excerpt = x.excerpts.toList[k]? := by
  have hsound := (Portions.sound_portions h).iterate k
  rw [hsound.map_excerpt_next, Portions.iterate_excerpts]
  obtain ⟨-, ts, ht, hfit⟩ := h
  have hb : x.portions.excerpts.place.Between x.portions.excerpts.text .sequence [] (ts.map .type) :=
    Portions.between_portions ht hfit
  rw [Excerpts.next_iterate hb, toList_excerpts ht hfit]
  rfl

end Signature

/-! ## Slots that a step leaves alone -/

/-- The slot that a step stores in. -/
def Step.dest? : Step → Option Slot
  | .new _ dest | .level _ _ dest | .array _ dest | .dict _ _ dest | .struct _ dest
  | .portions _ dest | .excerpts _ dest | .iterate _ _ dest | .next _ dest | .clone _ dest
  | .children _ dest | .toSignature _ dest | .deserialize _ dest | .roundTrip _ dest => dest
  | .read _ | .rest _ | .equal _ _ | .insert _ | .find _ | .remove _ | .drop _ => none

/-- Whether a step calls the iterator in a slot for its next item. -/
def Step.calls (slot : Slot) : Step → Bool
  | .next source _ => source == slot
  | _ => false

/-- Whether a step neither replaces what a slot holds nor uses an iterator in it up. -/
structure Step.Spares (slot : Slot) (y : Step) : Prop where
  dest : y.dest? ≠ some slot
  rest : y ≠ .rest slot
  drop : y ≠ .drop slot

theorem Step.spares_next (source slot : Slot) : (Step.next source none).Spares slot :=
  ⟨by simp [dest?], by simp, by simp⟩

namespace Session

variable {s : Session} {slot : Slot} {dest : Option Slot}

theorem get?_put_self (s : Session) (slot : Slot) (v : Value) : (s.put slot v).get? slot = some v := by
  simp [get?, put]

theorem get?_put_of_ne {slot' : Slot} (v : Value) (h : slot ≠ slot') :
    (s.put slot' v).get? slot = s.get? slot := by
  have hb : (slot == slot') = false := by simpa using h
  rw [get?, get?, put, List.lookup_cons, hb]
  exact lookup_filter_ne h s.slots

theorem get?_store (v : Value) (h : dest ≠ some slot) : (s.store dest v).1.get? slot = s.get? slot := by
  cases dest with
  | none => rfl
  | some slot' => exact get?_put_of_ne v fun heq => h (congrArg some heq.symm)

theorem get?_storeNew (r : Except BuildError Signature) (h : dest ≠ some slot) :
    (s.storeNew dest r).1.get? slot = s.get? slot := by
  cases r with
  | ok x => exact get?_store _ h
  | error e => rfl

theorem get?_storeRead (r : Except ReadError Signature) (h : dest ≠ some slot) :
    (s.storeRead dest r).1.get? slot = s.get? slot := by
  cases r with
  | ok x => exact get?_store _ h
  | error e => rfl

theorem get?_storeNext (v? : Option Value) (h : dest ≠ some slot) :
    (s.storeNext dest v?).1.get? slot = s.get? slot := by
  cases v? with
  | some v => exact get?_store v h
  | none => rfl

theorem get?_withSignature {source : Slot} {f : Signature → Session × Answer}
    (h : ∀ x, (f x).1.get? slot = s.get? slot) :
    (s.withSignature source f).1.get? slot = s.get? slot := by
  rw [withSignature]
  split
  · exact h _
  · rfl

/-- **A step that spares a slot and does not call what is in it leaves it as it is.** -/
theorem get?_step {y : Step} (h : y.Spares slot) (hc : y.calls slot = false) :
    (s.step y).1.get? slot = s.get? slot := by
  obtain ⟨hdest, hrest, hdrop⟩ := h
  cases y with
  | new origin dest => exact get?_storeNew _ hdest
  | level source level dest => exact get?_withSignature fun x => get?_store _ hdest
  | array source dest => exact get?_withSignature fun x => get?_storeNew _ hdest
  | dict key value dest =>
    exact get?_withSignature fun k => get?_withSignature fun v => get?_storeNew _ hdest
  | struct fields dest =>
    rw [Session.step]
    split
    · exact get?_storeNew _ hdest
    · rfl
  | portions source dest | excerpts source dest =>
    exact get?_withSignature fun x => get?_store _ hdest
  | iterate limits text dest =>
    rw [Session.step]
    split
    · exact get?_store _ hdest
    · rfl
  | next source dest =>
    have hne : slot ≠ source := fun heq => by simp [Step.calls, heq] at hc
    rw [Session.step]
    split
    · exact (get?_storeNext _ hdest).trans (get?_put_of_ne _ hne)
    · exact (get?_storeNext _ hdest).trans (get?_put_of_ne _ hne)
    · rfl
  | rest source =>
    have hne : slot ≠ source := fun heq => hrest (congrArg Step.rest heq.symm)
    rw [Session.step]
    split
    · exact get?_put_of_ne _ hne
    · exact get?_put_of_ne _ hne
    · rfl
  | clone source dest =>
    rw [Session.step]
    split
    · exact get?_store _ hdest
    · rfl
  | children source dest =>
    rw [Session.step]
    split
    · exact get?_store _ hdest
    · exact get?_store _ hdest
    · rfl
  | toSignature source dest =>
    rw [Session.step]
    split
    · exact get?_store _ hdest
    · rfl
  | equal a b =>
    rw [Session.step]
    split <;> rfl
  | read source | insert source | find source | remove source =>
    exact get?_withSignature fun x => rfl
  | deserialize value dest => exact get?_storeRead _ hdest
  | roundTrip source dest => exact get?_withSignature fun x => get?_storeRead _ hdest
  | drop source =>
    have hne : slot ≠ source := fun heq => hdrop (congrArg Step.drop heq.symm)
    exact lookup_filter_ne hne s.slots

end Session

/-! ## Iterators moved on in turns -/

/-- The answer to a call of an iterator. -/
def Answer.ofNext : Option Excerpt → Answer
  | some x => .item x
  | none => .nothing

/-- Whether a value is an iterator over the types of a signature that has been called `k` times. -/
def Value.Called (x : Signature) (k : Nat) : Value → Prop
  | .portions it => it = (fun it => it.next.2)^[k] x.portions
  | .excerpts it => it = (fun it => it.next.2)^[k] x.excerpts
  | _ => False

namespace Session

/-- Whether a slot holds an iterator over the types of a signature that has been called `k` times. -/
def Goes (x : Signature) (k : Nat) (s : Session) (slot : Slot) : Prop :=
  ∃ v, s.get? slot = some v ∧ v.Called x k

/-- The answers to the calls of the iterator in a slot, among the answers to all steps. -/
def answersTo (slot : Slot) (s : Session) (steps : List Step) : List Answer :=
  ((steps.zip (s.run steps).2).filter fun p => p.1.calls slot).map Prod.snd

variable {s : Session} {x : Signature} {source slot : Slot} {k : Nat}

theorem goes_store {v : Value} (h : v.Called x k) : (s.store (some slot) v).1.Goes x k slot :=
  ⟨v, get?_put_self s slot v, h⟩

/-- An iterator over a signature starts in front of its first type. -/
theorem goes_open (h : s.get? source = some (.signature x)) :
    (s.step (.portions source (some slot))).1.Goes x 0 slot ∧
      (s.step (.excerpts source (some slot))).1.Goes x 0 slot := by
  have hsource : s.signature? source = some x := by rw [signature?, h]
  rw [step, step, withSignature, withSignature, hsource]
  exact ⟨goes_store (v := .portions x.portions) rfl, goes_store (v := .excerpts x.excerpts) rfl⟩

/-- An iterator over a text does what one over its signature does. -/
theorem goes_iterate {limits : Limits} (h : check limits x.text = .ok ()) :
    (s.step (.iterate limits x.text (some slot))).1.Goes x 0 slot := by
  have hit : Excerpts.ofBytes limits x.text = .ok x.excerpts := Excerpts.ofBytes_ok_iff.mpr ⟨h, rfl⟩
  rw [step, hit]
  exact goes_store (v := .excerpts x.excerpts) rfl

/-- A copy of an iterator goes on from where the iterator is. -/
theorem Goes.clone (h : s.Goes x k source) :
    (s.step (.clone source (some slot))).1.Goes x k slot := by
  obtain ⟨v, hv, hcalled⟩ := h
  rw [step, hv]
  exact goes_store hcalled

theorem storeNext_answer (dest : Option Slot) (v? : Option Value) :
    (s.storeNext dest v?).2 = v?.elim .nothing Value.answer := by
  cases v? <;> rfl

/-- **A call gives the type that the iterator has come to**, and counts one more. -/
theorem Goes.call {dest : Option Slot} (hx : x.Sound) (h : s.Goes x k slot) (hd : dest ≠ some slot) :
    (s.step (.next slot dest)).2 = .ofNext x.excerpts.toList[k]? ∧
      (s.step (.next slot dest)).1.Goes x (k + 1) slot := by
  obtain ⟨v, hv, hcalled⟩ := h
  cases v with
  | portions it =>
    obtain rfl := hcalled
    rw [step, hv]
    refine ⟨?_, ?_⟩
    · rw [storeNext_answer, ← hx.portions_iterate k]
      cases ((fun it => it.next.2)^[k] x.portions).next.1 <;> rfl
    · refine ⟨_, (get?_storeNext _ hd).trans (get?_put_self _ _ _), ?_⟩
      exact (Function.iterate_succ_apply' (fun it : Portions => it.next.2) k x.portions).symm
  | excerpts it =>
    obtain rfl := hcalled
    rw [step, hv]
    refine ⟨?_, ?_⟩
    · rw [storeNext_answer, ← hx.excerpts_iterate k]
      cases ((fun it => it.next.2)^[k] x.excerpts).next.1 <;> rfl
    · refine ⟨_, (get?_storeNext _ hd).trans (get?_put_self _ _ _), ?_⟩
      exact (Function.iterate_succ_apply' (fun it : Excerpts => it.next.2) k x.excerpts).symm
  | signature y | portion p | excerpt y => exact hcalled.elim

theorem calls_eq_true {y : Step} (h : y.calls slot = true) : ∃ dest, y = .next slot dest := by
  cases y with
  | next source dest =>
    obtain rfl : source = slot := by simpa [Step.calls] using h
    exact ⟨dest, rfl⟩
  | _ => simp [Step.calls] at h

theorem answersTo_cons (y : Step) (ys : List Step) :
    s.answersTo slot (y :: ys) =
      (if y.calls slot then [(s.step y).2] else []) ++ (s.step y).1.answersTo slot ys := by
  rw [answersTo, answersTo, run, List.zip_cons_cons, List.filter_cons]
  by_cases hc : y.calls slot
  · rw [if_pos hc, if_pos hc]
    rfl
  · rw [if_neg hc, if_neg hc]
    rfl

/-- **Whatever is done besides, an iterator gives the types in turn**, and then nothing. -/
theorem Goes.run (hx : x.Sound) {steps : List Step} (h : s.Goes x k slot)
    (hs : ∀ y ∈ steps, y.Spares slot) :
    s.answersTo slot steps =
        (List.range' k (steps.countP (·.calls slot))).map (fun i => .ofNext x.excerpts.toList[i]?) ∧
      (s.run steps).1.Goes x (k + steps.countP (·.calls slot)) slot := by
  induction steps generalizing s k with
  | nil => exact ⟨rfl, h⟩
  | cons y ys ih =>
    have hy := hs y List.mem_cons_self
    have hys : ∀ z ∈ ys, z.Spares slot := fun z hz => hs z (List.mem_cons_of_mem y hz)
    rw [answersTo_cons, Session.run]
    by_cases hc : y.calls slot
    · obtain ⟨dest, rfl⟩ := calls_eq_true hc
      have hdest : dest ≠ some slot := hy.dest
      obtain ⟨hanswer, hgoes⟩ := h.call hx hdest
      obtain ⟨hanswers, hend⟩ := ih hgoes hys
      rw [if_pos hc, List.countP_cons_of_pos hc, List.range'_succ, List.map_cons, hanswer, hanswers]
      refine ⟨rfl, ?_⟩
      rw [Nat.add_comm (ys.countP _), ← Nat.add_assoc]
      exact hend
    · have hkept : (s.step y).1.Goes x k slot := by
        obtain ⟨v, hv, hcalled⟩ := h
        exact ⟨v, (get?_step hy (by simpa using hc)).trans hv, hcalled⟩
      rw [if_neg hc, List.countP_cons_of_neg hc]
      exact ih hkept hys

end Session

/-- **All ways through a signature agree.** Whatever steps have led to a signature, going through it as
parts, as excerpts, by counting, or through its text under any limits that accept it gives the same
types. Iterators over it start in front of the first of them, and copies go on from where the original
is. Whatever is done besides, an iterator that is called again and again gives the types from its own
place on, one after the other, and then nothing. -/
theorem traversals_agree (steps : List Step) (x : Signature) (h : Session.Obtained steps x) :
    x.Agrees ∧
    (∀ (s : Session) source slot, s.get? source = some (.signature x) →
      (s.step (.portions source (some slot))).1.Goes x 0 slot ∧
        (s.step (.excerpts source (some slot))).1.Goes x 0 slot) ∧
    (∀ (s : Session) limits slot, check limits x.text = .ok () →
      (s.step (.iterate limits x.text (some slot))).1.Goes x 0 slot) ∧
    (∀ (s : Session) source slot k, s.Goes x k source →
      (s.step (.clone source (some slot))).1.Goes x k slot) ∧
    ∀ (s : Session) slot k more, s.Goes x k slot → (∀ y ∈ more, y.Spares slot) →
      s.answersTo slot more = (List.range' k (more.countP (·.calls slot))).map
          (fun i => .ofNext x.excerpts.toList[i]?) ∧
        (s.run more).1.Goes x (k + more.countP (·.calls slot)) slot := by
  have hx := h.sound
  refine ⟨hx.agrees, ?_, ?_, ?_, ?_⟩
  · intro s source slot hsource
    exact Session.goes_open hsource
  · intro s limits slot hc
    exact Session.goes_iterate hc
  · intro s source slot k hgoes
    exact hgoes.clone
  · intro s slot k more hgoes hspares
    exact hgoes.run hx hspares

/-- Two iterators over `ia{sv}`, of which one is a copy of the other that has given `i` already, are
called in turns. -/
theorem traversals_agree_turns :
    let x : Signature := .ofChecked [0x69, 0x61, 0x7b, 0x73, 0x76, 0x7d]
    let i : Excerpt := ⟨[0x69], 0, .basic .int32, false⟩
    let asv : Excerpt := ⟨[0x61, 0x7b, 0x73, 0x76, 0x7d], 1, .array, true⟩
    let opened := ((Session.new.run [.new (.text x.text) (some "x")]).1.step
      (.portions "x" (some "p"))).1
    let cloned := (opened.run [.next "p" none, .clone "p" (some "c")]).1
    let turns : List Step := [.next "c" none, .next "p" none, .next "p" none, .next "c" none,
      .next "c" none]
    Session.Obtained [.new (.text x.text) (some "x")] x ∧
      cloned.answersTo "p" turns = [.item asv, .nothing] ∧
      cloned.answersTo "c" turns = [.item asv, .nothing, .nothing] ∧
      x.excerpts.toList = [i, asv] ∧ x.count = 2 := by
  intro x i asv opened cloned turns
  have hfit : Ty.Fit .top [.basic .int32, .dict .string .variant] := by decide
  have hmade : (Origin.text x.text).signature = .ok x := by
    have hcheck : check .standard (Ty.renderAll [.basic .int32, .dict .string .variant]) = .ok () :=
      check_renderAll_iff.mpr ⟨by simp [Limits.standard, Ty.renderAll, Ty.render], by decide⟩
    exact Signature.within_ok_iff.mpr ⟨hcheck, rfl⟩
  have hrun : (Session.new.run [.new (.text x.text) (some "x")]).1 =
      Session.new.put "x" (.signature x) := by
    show (Session.new.storeNew (some "x") (Origin.text x.text).signature).1 = _
    rw [hmade]
    rfl
  have hx : Session.Obtained [.new (.text x.text) (some "x")] x := Session.obtained_new hmade _
  obtain ⟨hagrees, hopen, -, hclone, hturns⟩ := traversals_agree _ x hx
  have hslot : (Session.new.run [.new (.text x.text) (some "x")]).1.get? "x" =
      some (.signature x) := by
    rw [hrun]
    exact Session.get?_put_self _ _ _
  have hspares : ∀ slot, ∀ y ∈ turns, y.Spares slot := by
    intro slot
    simp [turns, Step.spares_next]
  have hlist : x.excerpts.toList = [i, asv] := Signature.toList_excerpts rfl hfit
  -- The original has been called once when it is copied, and has not been moved by that.
  have hcalled : (opened.step (.next "p" none)).1.Goes x 1 "p" :=
    (hturns opened "p" 0 [.next "p" none] (hopen _ "x" "p" hslot).1
      (by simp [Step.spares_next])).2
  have hcopy : cloned.Goes x 1 "c" := hclone _ "p" "c" 1 hcalled
  have horiginal : cloned.Goes x 1 "p" := by
    refine (hturns _ "p" 1 [.clone "p" (some "c")] hcalled ?_).2
    intro y hy
    obtain rfl := List.mem_singleton.mp hy
    exact ⟨by simp [Step.dest?], by simp, by simp⟩
  refine ⟨hx, ?_, ?_, hlist, ?_⟩
  · rw [(hturns _ "p" 1 turns horiginal (hspares "p")).1, hlist]
    rfl
  · rw [(hturns _ "c" 1 turns hcopy (hspares "c")).1, hlist]
    rfl
  · rw [hagrees.count, hlist]
    rfl

end DBusTypes
