import Mathlib.Data.List.Induction
import DBusTypes.Proofs.Values

/-!
# Whatever is done

Some ways to a text skip the check: a signature of a single portion, the types of a signature, the
inside of a type. However operations follow each other, they never lead to a text that is not the
text of types, nor an iterator to a place that is not between two of them.

* `Session.Sound` — every value that is kept is sound
* `Session.Sound.step` — **every operation keeps it so**
* `Session.Obtained` — the signatures that some steps lead to
* `session_smooth` — **nothing that is ever kept can fail to be read**
-/

namespace DBusTypes

/-- The type that an item in a slot is. -/
def Value.item? : Value → Option Excerpt
  | .portion p => some p.excerpt
  | .excerpt x => some x
  | _ => none

namespace Session

/-- Whether a type is among the items in the slots. -/
def Holds (s : Session) (y : Excerpt) : Prop := ∃ p ∈ s.slots, p.2.item? = some y

/-- Whether a type was among the items in the slots at some time of a run. -/
def Seen (steps : List Step) (y : Excerpt) : Prop :=
  ∃ earlier, earlier <+: steps ∧ (new.run earlier).1.Holds y

/-- Whether every value is sound that is kept in a slot or in the set. -/
structure Sound (seen : Excerpt → Prop) (s : Session) : Prop where
  slots : ∀ p ∈ s.slots, p.2.Sound seen
  set : ∀ x ∈ s.set, x.Sound

/-- Whether a session and the answer it was left with are sound. -/
def SoundWith (seen : Excerpt → Prop) (r : Session × Answer) : Prop :=
  r.1.Sound seen ∧ r.2.Sound seen

variable {seen seen' : Excerpt → Prop} {s : Session}

theorem sound_new : new.Sound seen :=
  ⟨fun _ hp => absurd hp List.not_mem_nil, fun x hx => by simp [new] at hx⟩

theorem Sound.mono (h : s.Sound seen) (hs : ∀ y, seen y → seen' y) : s.Sound seen' :=
  ⟨fun p hp => (h.slots p hp).mono hs, h.set⟩

/-! ## Slots -/

theorem mem_of_get? {slot : Slot} {v : Value} (h : s.get? slot = some v) : (slot, v) ∈ s.slots := by
  rw [get?, List.lookup_eq_some_iff] at h
  obtain ⟨u, w, hslots, -⟩ := h
  rw [hslots]
  exact List.mem_append_right _ List.mem_cons_self

theorem Sound.get? {slot : Slot} {v : Value} (h : s.Sound seen) (hv : s.get? slot = some v) :
    v.Sound seen := h.slots _ (mem_of_get? hv)

theorem Sound.put {v : Value} (h : s.Sound seen) (slot : Slot) (hv : v.Sound seen) :
    (s.put slot v).Sound seen := by
  refine ⟨?_, h.set⟩
  intro p hp
  rcases List.mem_cons.mp hp with rfl | hp
  · exact hv
  · exact h.slots p (List.mem_filter.mp hp).1

theorem Sound.erase (h : s.Sound seen) (slot : Slot) : (s.erase slot).Sound seen :=
  ⟨fun p hp => h.slots p (List.mem_filter.mp hp).1, h.set⟩

theorem Sound.store {v : Value} (h : s.Sound seen) (dest : Option Slot) (hv : v.Sound seen) :
    SoundWith seen (s.store dest v) := by
  refine ⟨?_, hv.answer⟩
  cases dest with
  | none => exact h
  | some slot => exact h.put slot hv

theorem Sound.storeNew {r : Except BuildError Signature} (h : s.Sound seen) (dest : Option Slot)
    (hr : ∀ x, r = .ok x → x.Sound) : SoundWith seen (s.storeNew dest r) := by
  cases r with
  | ok x => exact h.store dest (v := .signature x) (hr x rfl)
  | error e => exact ⟨h, trivial⟩

theorem Sound.storeRead {r : Except ReadError Signature} (h : s.Sound seen) (dest : Option Slot)
    (hr : ∀ x, r = .ok x → x.Sound) : SoundWith seen (s.storeRead dest r) := by
  cases r with
  | ok x => exact h.store dest (v := .signature x) (hr x rfl)
  | error e => exact ⟨h, trivial⟩

theorem Sound.storeNext {v? : Option Value} (h : s.Sound seen) (dest : Option Slot)
    (hv : ∀ v, v? = some v → v.Sound seen) : SoundWith seen (s.storeNext dest v?) := by
  cases v? with
  | some v => exact h.store dest (hv v rfl)
  | none => exact ⟨h, trivial⟩

theorem Sound.withSignature {slot : Slot} {f : Signature → Session × Answer} (h : s.Sound seen)
    (hf : ∀ x, x.Sound → SoundWith seen (f x)) : SoundWith seen (s.withSignature slot f) := by
  rw [Session.withSignature, signature?]
  split
  · next x hx =>
    split at hx
    · next y hy =>
      obtain rfl := Option.some.inj hx
      exact hf y (h.get? hy)
    · simp at hx
  · exact ⟨h, trivial⟩

end Session

/-! ## New signatures -/

namespace Signature

variable {s : Signature}

theorem sound_empty : empty.Sound := by
  have hfit : Ty.Fit .top [] := ⟨Nat.zero_le _, Nat.zero_le _⟩
  exact sound_of_fit rfl hfit

theorem sound_of_origin {origin : Origin} (h : origin.signature = .ok s) : s.Sound := by
  cases origin with
  | empty =>
    obtain rfl := Except.ok.inj h
    exact sound_empty
  | text b => exact sound_of_within h
  | within limits b => exact sound_of_within h

theorem sound_of_array {element : Signature} (h : array element = .ok s) : s.Sound :=
  sound_of_within (array_ok_iff.mp h).2

theorem sound_of_dict {key value : Signature} (h : dict key value = .ok s) : s.Sound :=
  sound_of_within (dict_ok_iff.mp h).2.2

theorem sound_of_struct {fields : List Signature} (h : struct fields = .ok s) : s.Sound :=
  sound_of_within (struct_ok_iff.mp h).2

theorem sound_of_ofJson {value : Json} (h : ofJson value = .ok s) : s.Sound := by
  obtain ⟨text, -, ht⟩ := ofJson_ok_iff.mp h
  exact sound_of_within ht

end Signature

/-! ## Steps -/

namespace Session

variable {seen : Excerpt → Prop} {s : Session}

/-- **Every operation keeps what is kept sound**, and gives sound answers. -/
theorem Sound.step (h : s.Sound seen) (hs : ∀ y, s.Holds y → seen y) (x : Step) :
    SoundWith seen (s.step x) := by
  cases x with
  | new origin dest => exact h.storeNew dest fun _ => Signature.sound_of_origin
  | level source level dest =>
    refine h.withSignature fun x hx => ?_
    exact h.store dest (v := .signature (x.withLevel level)) (hx.of_text rfl)
  | read source => exact h.withSignature fun x hx => ⟨h, hx⟩
  | array source dest =>
    exact h.withSignature fun x _ => h.storeNew dest fun _ => Signature.sound_of_array
  | dict key value dest =>
    refine h.withSignature fun k _ => h.withSignature fun v _ => ?_
    exact h.storeNew dest fun _ => Signature.sound_of_dict
  | struct fields dest =>
    rw [Session.step]
    split
    · exact h.storeNew dest fun _ => Signature.sound_of_struct
    · exact ⟨h, trivial⟩
  | portions source dest =>
    refine h.withSignature fun x hx => ?_
    exact h.store dest (v := .portions x.portions) (Portions.sound_portions hx)
  | excerpts source dest =>
    refine h.withSignature fun x hx => ?_
    exact h.store dest (v := .excerpts x.excerpts) (Excerpts.sound_excerpts hx)
  | iterate limits text dest =>
    rw [Session.step]
    split
    · next it hit =>
      obtain ⟨ts, -, -, hb⟩ := Excerpts.between_ofBytes hit
      exact h.store dest (v := .excerpts it) (Excerpts.sound_of_between hb)
    · exact ⟨h, trivial⟩
  | next source dest =>
    rw [Session.step]
    split
    · next it hit =>
      -- The iterator has moved on, whether or not there is a slot for its item.
      obtain ⟨hrest, hitem⟩ := Portions.Sound.next (h.get? hit)
      refine (h.put source (v := .portions it.next.2) hrest).storeNext dest ?_
      intro v hv
      obtain ⟨p, hp, rfl⟩ := Option.map_eq_some_iff.mp hv
      exact hitem p hp
    · next it hit =>
      obtain ⟨hrest, hitem⟩ := Excerpts.Sound.next (h.get? hit)
      refine (h.put source (v := .excerpts it.next.2) hrest).storeNext dest ?_
      intro v hv
      obtain ⟨x, hx, rfl⟩ := Option.map_eq_some_iff.mp hv
      exact hitem x hx
    · exact ⟨h, trivial⟩
  | rest source =>
    rw [Session.step]
    split
    · next it hit =>
      obtain ⟨hrest, hitems⟩ := Portions.Sound.drain (h.get? hit)
      refine ⟨h.put source (v := .portions it.drain.2) hrest, ?_⟩
      intro x hx
      obtain ⟨p, hp, rfl⟩ := List.mem_map.mp hx
      exact (hitems p hp).excerpt seen
    · next it hit =>
      obtain ⟨hrest, hitems⟩ := Excerpts.Sound.drain (h.get? hit)
      exact ⟨h.put source (v := .excerpts it.drain.2) hrest, hitems⟩
    · exact ⟨h, trivial⟩
  | clone source dest =>
    rw [Session.step]
    split
    · next v hv => exact h.store dest (h.get? hv)
    · exact ⟨h, trivial⟩
  | children source dest =>
    rw [Session.step]
    split
    · next p hp =>
      have hseen : seen p.excerpt := hs _ ⟨_, mem_of_get? hp, rfl⟩
      have hsound : p.excerpt.Sound seen := Portion.Sound.excerpt (h.get? hp) seen
      exact h.store dest (v := .excerpts p.children) (hsound.children hseen)
    · next x hx =>
      have hseen : seen x := hs _ ⟨_, mem_of_get? hx, rfl⟩
      have hsound : x.Sound seen := h.get? hx
      exact h.store dest (v := .excerpts x.children) (hsound.children hseen)
    · exact ⟨h, trivial⟩
  | toSignature source dest =>
    rw [Session.step]
    split
    · next p hp =>
      exact h.store dest (v := .signature p.signature) (Portion.Sound.signature (h.get? hp))
    · exact ⟨h, trivial⟩
  | equal a b =>
    rw [Session.step]
    split <;> exact ⟨h, trivial⟩
  | insert source =>
    refine h.withSignature fun x hx => ⟨⟨h.slots, ?_⟩, trivial⟩
    intro y hy
    rcases Std.HashSet.mem_insert.mp hy with heq | hy
    · exact hx.of_text ((Signature.beq_iff x y).mp heq).symm
    · exact h.set y hy
  | find source =>
    refine h.withSignature fun x hx => ⟨h, ?_⟩
    cases hf : s.set.get? x with
    | none => trivial
    | some y =>
      have heq : (y == x) = true := by
        have hall := Std.HashSet.get?_beq (m := s.set) (k := x)
        rwa [hf] at hall
      exact hx.of_text ((Signature.beq_iff y x).mp heq)
  | remove source =>
    refine h.withSignature fun x _ => ⟨⟨h.slots, ?_⟩, trivial⟩
    intro y hy
    exact h.set y (Std.HashSet.mem_erase.mp hy).2
  | deserialize value dest => exact h.storeRead dest fun _ => Signature.sound_of_ofJson
  | roundTrip source dest =>
    exact h.withSignature fun x _ => h.storeRead dest fun _ => Signature.sound_of_ofJson
  | drop source => exact ⟨h.erase source, trivial⟩

/-! ## Runs -/

theorem run_append (s : Session) (xs ys : List Step) :
    s.run (xs ++ ys) = (((s.run xs).1.run ys).1, (s.run xs).2 ++ ((s.run xs).1.run ys).2) := by
  induction xs generalizing s with
  | nil => rfl
  | cons x xs ih => rw [List.cons_append, run, ih, run, List.cons_append]

/-- Whatever is kept at the end of a run was seen in it. -/
theorem seen_of_holds {steps : List Step} {y : Excerpt} (h : (new.run steps).1.Holds y) :
    Seen steps y := ⟨steps, List.prefix_refl steps, h⟩

theorem Seen.append {steps : List Step} {y : Excerpt} (h : Seen steps y) (more : List Step) :
    Seen (steps ++ more) y := by
  obtain ⟨earlier, hp, hy⟩ := h
  exact ⟨earlier, hp.trans (List.prefix_append steps more), hy⟩

end Session

/-- Whatever is done, what is kept is sound and so are the answers. -/
theorem Session.sound_run (steps : List Step) :
    (new.run steps).1.Sound (Seen steps) ∧ ∀ a ∈ (new.run steps).2, a.Sound (Seen steps) := by
  induction steps using List.reverseRecOn with
  | nil => exact ⟨sound_new, by simp [run]⟩
  | append_singleton steps x ih =>
    obtain ⟨hs, ha⟩ := ih
    -- What was seen before the last step has been seen in the whole run.
    have hseen : ∀ y, Seen steps y → Seen (steps ++ [x]) y := fun y hy => hy.append [x]
    obtain ⟨hs', ha'⟩ := (hs.mono hseen).step (fun y hy => hseen y (seen_of_holds hy)) x
    rw [run_append]
    refine ⟨hs', ?_⟩
    intro a hmem
    rcases List.mem_append.mp hmem with hmem | hmem
    · exact (ha a hmem).mono hseen
    · obtain rfl := List.mem_singleton.mp hmem
      exact ha'

namespace Session

/-- Whether steps lead to a signature, in a slot, in the set or in an answer. -/
def Obtained (steps : List Step) (x : Signature) : Prop :=
  (∃ p ∈ (new.run steps).1.slots, p.2 = .signature x) ∨ x ∈ (new.run steps).1.set ∨
    .signature x ∈ (new.run steps).2

theorem Obtained.sound {steps : List Step} {x : Signature} (h : Obtained steps x) : x.Sound := by
  obtain ⟨hs, ha⟩ := sound_run steps
  rcases h with ⟨p, hp, hx⟩ | hx | hx
  · have hsound := hs.slots p hp
    rw [hx] at hsound
    exact hsound
  · exact hs.set x hx
  · exact ha _ hx

theorem obtained_new {origin : Origin} {x : Signature} (h : origin.signature = .ok x)
    (dest : Option Slot) : Obtained [.new origin dest] x := by
  refine Or.inr (Or.inr ?_)
  show Answer.signature x ∈ [(new.storeNew dest origin.signature).2]
  rw [h]
  exact List.mem_singleton_self _

end Session

/-- **Nothing that is ever kept can fail to be read.** After any steps, every value in a slot and in
the set is made of types or stands between them, and reading it meets no fault, no byte that is not a
code and no cut inside a character; and all answers are made of types. -/
theorem session_smooth (steps : List Step) :
    (∀ p ∈ (Session.new.run steps).1.slots, p.2.Sound (Session.Seen steps) ∧ p.2.Smooth) ∧
      (∀ x ∈ (Session.new.run steps).1.set, x.Sound ∧ x.Smooth) ∧
      ∀ a ∈ (Session.new.run steps).2, a.Sound (Session.Seen steps) := by
  obtain ⟨hs, ha⟩ := Session.sound_run steps
  refine ⟨?_, ?_, ha⟩
  · intro p hp
    exact ⟨hs.slots p hp, (hs.slots p hp).smooth⟩
  · intro x hx
    exact ⟨hs.set x hx, (hs.set x hx).smooth⟩

end DBusTypes
