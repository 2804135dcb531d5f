import DBusTypes.Proofs.Acceptance

/-!
# Reading a whole text

Checking reads one type after the other and starts each with nothing open. After a whole type nothing
is open anyway, so the same is done by taking the bytes of the text one by one, from beginning to end,
and asking once at the end whether anything is open. In this form a text can be cut anywhere.

* `Nest.feedAll` — taking bytes one by one
* `checkFrom_eq_feedAll` — **checking is taking all bytes and having nothing open at the end**
* `Progress` — how far a text has been read: whole types, and then the beginning of one more
* `Progress.feedAll_ok` — **bytes that are taken are appended to what has been read**
-/

namespace DBusTypes

namespace Nest

/-- Takes bytes one by one, the first of them at `offset`. -/
def feedAll (limit : Depth) (scope : Scope) : Nest → Nat → Bytes → Except Fault Nest
  | s, _, [] => .ok s
  | s, offset, b :: rest =>
    match s.feed limit scope offset b with
    | .error f => .error f
    | .ok s' => feedAll limit scope s' (offset + 1) rest

/-- What is wrong at the end of a text, if something is open. -/
def finish (s : Nest) : Except Fault Unit := if s.opened.isEmpty then .ok () else .error s.unfinished

variable {limit : Depth} {scope : Scope}

theorem feedAll_append (s : Nest) (offset : Nat) (u v : Bytes) :
    feedAll limit scope s offset (u ++ v) =
      match feedAll limit scope s offset u with
      | .error f => .error f
      | .ok s' => feedAll limit scope s' (offset + u.length) v := by
  induction u generalizing s offset with
  | nil => rfl
  | cons b u ih =>
    rw [List.cons_append, feedAll, feedAll]
    cases s.feed limit scope offset b with
    | error f => rfl
    | ok s' => simp only [ih, List.length_cons, Nat.add_assoc, Nat.add_comm 1]

/-- A fault has a byte that is not taken. -/
theorem feedAll_error {s : Nest} {offset : Nat} {bytes : Bytes} {f : Fault}
    (h : feedAll limit scope s offset bytes = .error f) :
    ∃ u b v s', bytes = u ++ b :: v ∧ feedAll limit scope s offset u = .ok s' ∧
      s'.feed limit scope (offset + u.length) b = .error f := by
  induction bytes generalizing s offset with
  | nil => simp [feedAll] at h
  | cons b bytes ih =>
    rw [feedAll] at h
    cases hf : s.feed limit scope offset b with
    | error g =>
      obtain rfl : g = f := by simpa [hf] using h
      exact ⟨[], b, bytes, s, rfl, rfl, hf⟩
    | ok s₁ =>
      rw [hf] at h
      obtain ⟨u, c, v, s', rfl, hu, hc⟩ := ih h
      refine ⟨b :: u, c, v, s', rfl, ?_, ?_⟩
      · rw [feedAll, hf]
        exact hu
      · rw [List.length_cons, Nat.add_comm u.length, ← Nat.add_assoc]
        exact hc

end Nest

/-! ## Type by type, or byte by byte -/

section

variable {limit : Depth} {scope : Scope}

/-- Reading a type takes the same bytes, and what is left to do after it is left after them. -/
theorem Stem.feedAll_eq_run {base : Nat} {gs : List Stem} {offset : Nat} {bytes : Bytes}
    (hs : Sound limit scope gs) (ho : offset = base + (renderAll gs).length)
    (hne : gs ≠ [] ∨ bytes ≠ []) :
    (Nest.feedAll limit scope (nest base gs) offset bytes).bind Nest.finish =
      match ((nest base gs).run limit scope offset bytes).2 with
      | .error f => .error f
      | .ok (stop, rest) => (Nest.feedAll limit scope .start stop rest).bind Nest.finish := by
  induction bytes generalizing gs offset with
  | nil =>
    obtain ⟨g, outer, rfl⟩ := List.exists_cons_of_ne_nil (hne.resolve_right (fun h => h rfl))
    rfl
  | cons b bytes ih =>
    rw [Nest.feedAll]
    cases hf : (nest base gs).feed limit scope offset b with
    | error f => rw [Nest.run_cons_error hf]; rfl
    | ok s₁ =>
      rw [Nest.run_cons_ok hf]
      obtain ⟨r, hr, htext, rfl⟩ := feed_ok hs ho hf
      cases r with
      -- Nothing is open after a whole type, so the rest is taken from the start again.
      | whole e => rfl
      | inside gs' =>
        obtain ⟨hne', hs'⟩ := hr
        obtain ⟨g, outer, rfl⟩ := List.exists_cons_of_ne_nil hne'
        refine ih hs' ?_ (Or.inl hne')
        rw [show renderAll (g :: outer) = renderAll gs ++ [b] from htext, ho, List.length_append]
        rfl

/-- The same for a reader, which stops at the end of the text as well. -/
theorem TypeReader.feedAll_eq_read (r : TypeReader) (offset : Nat) (bytes : Bytes) :
    (Nest.feedAll r.limit r.scope .start offset bytes).bind Nest.finish =
      match (r.read offset bytes).2 with
      | .error f => .error f
      | .ok none => .ok ()
      | .ok (some (stop, rest)) =>
        (Nest.feedAll r.limit r.scope .start stop rest).bind Nest.finish := by
  by_cases hne : bytes = []
  · rw [hne, read_nil]
    rfl
  · have hs : Stem.Sound r.limit r.scope [] := trivial
    have ho : offset = offset + (Stem.renderAll []).length := rfl
    rw [read_eq_run hne, ← Stem.nest_nil offset, Stem.feedAll_eq_run hs ho (Or.inr hne)]
    cases ((Stem.nest offset []).run r.limit r.scope offset bytes).2 <;> rfl

/-- **Checking is taking all bytes and having nothing open at the end.** -/
theorem checkFrom_eq_feedAll (r : TypeReader) (offset : Nat) (bytes : Bytes) :
    checkFrom r offset bytes =
      (Nest.feedAll r.limit r.scope .start offset bytes).bind Nest.finish := by
  fun_induction checkFrom r offset bytes with
  | case1 r offset bytes r' f hread => rw [r.feedAll_eq_read, hread]
  | case2 r offset bytes r' hread => rw [r.feedAll_eq_read, hread]
  | case3 r offset bytes r' stop rest hread ih =>
    obtain ⟨hlimit, hscope⟩ := r.read_reader offset bytes
    rw [hread] at hlimit hscope
    rw [r.feedAll_eq_read, hread, ih, hlimit, hscope]

end

/-! ## How far a text has been read -/

/-- How far a sequence of types has been read: types that are whole, and the beginning of one more. -/
structure Progress (limit : Depth) where
  types : List Ty
  stems : List Stem
  fit : Ty.Fit limit types
  sound : Stem.Sound limit .sequence stems

namespace Progress

variable {limit : Depth}

/-- Nothing has been read. -/
def start : Progress limit := ⟨[], [], ⟨Nat.zero_le _, Nat.zero_le _⟩, trivial⟩

/-- The bytes that have been read. -/
def render (p : Progress limit) : Bytes := Ty.renderAll p.types ++ Stem.renderAll p.stems

/-- The state that reading them leads to. -/
def nest (p : Progress limit) : Nest := Stem.nest (Ty.renderAll p.types).length p.stems

theorem length_render (p : Progress limit) :
    p.render.length = (Ty.renderAll p.types).length + (Stem.renderAll p.stems).length :=
  List.length_append

/-- A byte that is taken is appended to what has been read. -/
theorem feed_ok (p : Progress limit) {b : UInt8} {s' : Nest}
    (h : p.nest.feed limit .sequence p.render.length b = .ok s') :
    ∃ q : Progress limit, q.render = p.render ++ [b] ∧ s' = q.nest := by
  obtain ⟨r, hr, htext, rfl⟩ := Stem.feed_ok p.sound p.length_render h
  cases r with
  | whole e =>
    obtain ⟨t, rfl, ht⟩ := Element.allowed_sequence.mp hr
    refine ⟨⟨p.types ++ [t], [], Ty.fit_append.mpr ⟨p.fit, ht⟩, trivial⟩, ?_, rfl⟩
    have htext : t.render = Stem.renderAll p.stems ++ [b] := htext
    simp [render, Ty.renderAll_append, Ty.renderAll, Stem.renderAll, htext]
  | inside gs =>
    refine ⟨⟨p.types, gs, p.fit, hr.2⟩, ?_, rfl⟩
    rw [render, render, List.append_assoc, ← htext]
    rfl

/-- **Bytes that are taken are appended to what has been read.** -/
theorem feedAll_ok (p : Progress limit) {u : Bytes} {s' : Nest}
    (h : p.nest.feedAll limit .sequence p.render.length u = .ok s') :
    ∃ q : Progress limit, q.render = p.render ++ u ∧ s' = q.nest := by
  induction u generalizing p with
  | nil => exact ⟨p, (List.append_nil _).symm, (Except.ok.inj h).symm⟩
  | cons b u ih =>
    rw [Nest.feedAll] at h
    cases hf : p.nest.feed limit .sequence p.render.length b with
    | error f => simp [hf] at h
    | ok s₁ =>
      rw [hf] at h
      obtain ⟨q, hq, rfl⟩ := p.feed_ok hf
      have hlen : p.render.length + 1 = q.render.length := by rw [hq, List.length_append]; rfl
      simp only [hlen] at h
      obtain ⟨q', hq', rfl⟩ := ih q h
      exact ⟨q', by rw [hq', hq, List.append_assoc]; rfl, rfl⟩

end Progress

end DBusTypes
