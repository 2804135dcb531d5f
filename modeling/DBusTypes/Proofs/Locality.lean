import DBusTypes.Proofs.Concatenation
import DBusTypes.Proofs.Tightening

/-!
# Reading looks at one type only

What a reader gives at an offset depends on the bytes of one type and on nothing else: not on where
they stand, not on what is around them, not on what the reader was used for before, and not on how
much more its limits would allow. A fault may also come from the end of the text, so it depends on all
bytes from the offset on.

1. Where an element stands, any reader that allows it reads it (`TypeReader.readAt_some_iff`), and
   what is allowed stays allowed under wider limits and inside an array (`Element.Allowed.mono`).
2. A run that starts elsewhere is the same run, moved (`Nest.run_shift`), so a fault is one of the
   bytes from the offset on, moved to the offset (`TypeReader.readAt_error_iff`).
3. Reading type after type, each call starts where the type before ends (`TypeReader.inTurn_calls`),
   which is further on (`TypeReader.calls_ascending`), so no two start at one place.

The main statement is `reading_is_local`.
-/

namespace DBusTypes

/-! ## Runs that start elsewhere -/

namespace Nest

variable {limit : Depth} {scope : Scope}

/-- What a run gives, in a text that has `n` more bytes in front. -/
def shiftRun (n : Nat) : Except Fault (Nat × Bytes) → Except Fault (Nat × Bytes)
  | .ok (stop, rest) => .ok (n + stop, rest)
  | .error f => .error (f.shift n)

/-- What is open at the end of a text is reported at the byte that opened it. -/
theorem unfinished_shift (n : Nat) {s : Nest} (h : s.opened ≠ []) :
    (s.shift n).unfinished = s.unfinished.shift n := by
  obtain ⟨opened, depth⟩ := s
  cases opened with
  | nil => exact absurd rfl h
  | cons o outer =>
    obtain ⟨container, start, held⟩ := o
    cases container <;> rfl

/-- **A run that starts elsewhere is the same run, moved.** Only a text that ends before the type has
started has no byte at which to report it. -/
theorem run_shift (n offset : Nat) (bytes : Bytes) (s : Nest) (h : s.opened ≠ [] ∨ bytes ≠ []) :
    ((s.shift n).run limit scope (n + offset) bytes).2 =
      shiftRun n (s.run limit scope offset bytes).2 := by
  induction bytes generalizing s offset with
  | nil =>
    have hopen : s.opened ≠ [] := h.resolve_right (not_not.mpr rfl)
    rw [run, run, unfinished_shift n hopen]
    rfl
  | cons b bytes ih =>
    rw [run, run, feed_shift]
    cases s.feed limit scope offset b with
    | error f => rfl
    | ok s' =>
      have hempty : (s'.shift n).opened.isEmpty = s'.opened.isEmpty := List.isEmpty_map
      simp only [shiftResult, hempty]
      by_cases hwhole : s'.opened.isEmpty = true
      · rw [if_pos hwhole, if_pos hwhole]
        rfl
      · rw [if_neg hwhole, if_neg hwhole]
        exact ih (offset + 1) s' (Or.inl (by simpa using hwhole))

end Nest

/-! ## One call -/

/-- What is allowed stays allowed under wider limits, and inside an array. -/
theorem Element.Allowed.mono {l m : Depth} {scope scope' : Scope} {e : Element}
    (h : e.Allowed l scope) (hle : l ≤ m) (hscope : scope' = scope ∨ scope' = .element) :
    e.Allowed m scope' := by
  obtain ⟨hkind, hcontainers, hentries⟩ := h
  refine ⟨?_, Nat.le_trans hcontainers (UInt32.le_iff_toNat_le.mp hle.1),
    Nat.le_trans hentries (UInt32.le_iff_toNat_le.mp hle.2)⟩
  intro hk
  rcases hscope with rfl | rfl
  · exact hkind hk
  · rfl

namespace TypeReader

variable {r r' : TypeReader} {text text' : Bytes} {start start' stop : Nat} {f : Fault}

/-- **A fault is one of the bytes from the offset on**, moved to the offset. -/
theorem readAt_error_iff : (r.readAt text start).2 = .error f ↔ text.drop start ≠ [] ∧
    ∃ g, (Nest.start.run r.limit r.scope 0 (text.drop start)).2 = .error g ∧ f = g.shift start := by
  by_cases hend : text.drop start = []
  · simp [readAt, hend, read_nil, Except.map]
  · have hrun : (Nest.start.run r.limit r.scope start (text.drop start)).2 =
        Nest.shiftRun start (Nest.start.run r.limit r.scope 0 (text.drop start)).2 :=
      Nest.run_shift start 0 _ .start (Or.inr hend)
    rw [readAt, read_eq_run hend, hrun]
    cases (Nest.start.run r.limit r.scope 0 (text.drop start)).2 with
    | ok found => simp [Nest.shiftRun, Except.map]
    | error g => simp [Nest.shiftRun, Except.map, hend, eq_comm]

/-- What is read at an offset depends on what the reader is for, and not on what it read before. -/
theorem readAt_congr (hlimit : r'.limit = r.limit) (hscope : r'.scope = r.scope) :
    (r'.readAt text start).2 = (r.readAt text start).2 := by
  by_cases hend : text.drop start = []
  · rw [readAt, readAt, hend, read_nil, read_nil]
  · rw [readAt, readAt, read_eq_run hend, read_eq_run hend, hlimit, hscope]

/-- There is a fault or a type wherever there is a byte. -/
theorem readAt_cases (r : TypeReader) (h : start < text.length) :
    (∃ f, (r.readAt text start).2 = .error f) ∨
      ∃ stop, (r.readAt text start).2 = .ok (some stop) := by
  have hread := r.read_eq_readAt text start
  rcases hres : (r.readAt text start).2 with f | _ | stop
  · exact Or.inl ⟨f, rfl⟩
  · rw [hres] at hread
    have hnil : text.drop start = [] := read_none_iff.mp hread
    exact absurd hnil (by simpa using h)
  · exact Or.inr ⟨stop, rfl⟩

/-- **A type that was read is read wherever its bytes stand**, by any reader that allows as much. -/
theorem readAt_move (h : (r.readAt text start).2 = .ok (some stop)) (hlimit : r.limit ≤ r'.limit)
    (hscope : r'.scope = r.scope ∨ r'.scope = .element)
    (hbytes : (text.drop start).take (stop - start) <+: text'.drop start') :
    (r'.readAt text' start').2 = .ok (some (start' + (stop - start))) := by
  obtain ⟨e, rest, he, htext, rfl⟩ := readAt_some_iff.mp h
  rw [htext, Nat.add_sub_cancel_left, List.take_left] at hbytes
  obtain ⟨rest', htext'⟩ := hbytes
  rw [Nat.add_sub_cancel_left]
  exact readAt_some_iff.mpr ⟨e, rest', he.mono hlimit hscope, htext'.symm, rfl⟩

/-! ## One call after the other -/

/-- The calls that read the types of a text from an offset on, up to a fault or the end: where each
starts, and what it gives. -/
def calls (r : TypeReader) (text : Bytes) (start : Nat) : List (Nat × Except Fault (Option Nat)) :=
  match _h : r.readAt text start with
  | (r', .ok (some stop)) => (start, .ok (some stop)) :: r'.calls text stop
  | (_, last) => [(start, last)]
termination_by text.length - start
decreasing_by
  have := readAt_some (congrArg Prod.snd _h)
  omega

/-- Whether calls read the types of a text one after the other: each but the last gives the end of a
type, and there the next one starts. -/
structure InTurn (r : TypeReader) (text : Bytes) (start : Nat)
    (calls : List (Nat × Except Fault (Option Nat))) : Prop where
  first : calls.head?.map Prod.fst = some start
  /-- Only the first call is made with the reader as it is, but all give what it would give. -/
  result : ∀ c ∈ calls, c.2 = (r.readAt text c.1).2
  next : ∀ i c d, calls[i]? = some c → calls[i + 1]? = some d → c.2 = .ok (some d.1)
  last : ∀ c ∈ calls.getLast?, ∀ stop, c.2 ≠ .ok (some stop)

theorem inTurn_calls (r : TypeReader) (text : Bytes) (start : Nat) :
    r.InTurn text start (r.calls text start) := by
  fun_induction calls r text start with
  | case1 r start r' stop hread ih =>
    have hsame := r.readAt_reader text start
    rw [hread] at hsame
    refine ⟨rfl, ?_, ?_, ?_⟩
    · intro c hc
      rcases List.mem_cons.mp hc with rfl | hc
      · rw [hread]
      · rw [ih.result c hc]
        exact readAt_congr hsame.1 hsame.2
    · intro i c d hc hd
      cases i with
      | zero =>
        obtain rfl := Option.some.inj hc
        have hfirst := ih.first
        rw [List.head?_eq_getElem?, show (r'.calls text stop)[0]? = some d from hd] at hfirst
        rw [Option.some.inj hfirst]
      | succ i => exact ih.next i c d hc hd
    · intro c hc
      cases hlast : (r'.calls text stop).getLast? with
      | none =>
        have hfirst := ih.first
        rw [List.getLast?_eq_none_iff.mp hlast] at hfirst
        simp at hfirst
      | some c' =>
        rw [List.getLast?_cons, hlast] at hc
        obtain rfl : c' = c := Option.some.inj hc
        exact ih.last c' hlast
  | case2 r start r' last hlast hread =>
    refine ⟨rfl, ?_, ?_, ?_⟩
    · intro c hc
      obtain rfl := List.mem_singleton.mp hc
      rw [hread]
    · intro i c d hc hd
      simp at hd
    · intro c hc stop hstop
      obtain rfl := Option.some.inj hc
      exact hlast stop hstop

/-- **Each call starts behind the one before**, and the last one not behind the end. -/
theorem calls_ascending (hstart : start ≤ text.length) :
    (r.calls text start).Pairwise (fun c d => c.1 < d.1) ∧
      ∀ c ∈ r.calls text start, start ≤ c.1 ∧ c.1 ≤ text.length := by
  fun_induction calls r text start with
  | case1 r start r' stop hread ih =>
    obtain ⟨hlt, hle⟩ := readAt_some (congrArg Prod.snd hread)
    obtain ⟨hsorted, hwithin⟩ := ih hle
    refine ⟨List.pairwise_cons.mpr ⟨fun d hd => Nat.lt_of_lt_of_le hlt (hwithin d hd).1, hsorted⟩, ?_⟩
    intro c hc
    rcases List.mem_cons.mp hc with rfl | hc
    · exact ⟨Nat.le_refl _, hstart⟩
    · exact ⟨Nat.le_trans (Nat.le_of_lt hlt) (hwithin c hc).1, (hwithin c hc).2⟩
  | case2 r start r' last hlast hread =>
    refine ⟨List.pairwise_singleton _ _, ?_⟩
    intro c hc
    obtain rfl := List.mem_singleton.mp hc
    exact ⟨Nat.le_refl _, hstart⟩

/-- There is at most one call for each byte, and one more. -/
theorem length_calls_le (hstart : start ≤ text.length) :
    start + (r.calls text start).length ≤ text.length + 1 := by
  fun_induction calls r text start with
  | case1 r start r' stop hread ih =>
    obtain ⟨hlt, hle⟩ := readAt_some (congrArg Prod.snd hread)
    have := ih hle
    rw [List.length_cons]
    omega
  | case2 r start r' last hlast hread =>
    rw [List.length_singleton]
    omega

end TypeReader

/-- Checking gives what the last call gives. -/
theorem checkFrom_eq_calls (r : TypeReader) (text : Bytes) (start : Nat) :
    ∃ c, (r.calls text start).getLast? = some c ∧
      checkFrom r start (text.drop start) = c.2.map fun _ => () := by
  fun_induction TypeReader.calls r text start with
  | case1 r start r' stop hread ih =>
    obtain ⟨c, hlast, hc⟩ := ih
    have hnext : (r.read start (text.drop start)).1 = r' := congrArg Prod.fst hread
    refine ⟨c, ?_, ?_⟩
    · rw [List.getLast?_cons, hlast]
      rfl
    · rw [checkFrom_eq, TypeReader.read_eq_readAt, hread, hnext]
      exact hc
  | case2 r start r' last hlast hread =>
    refine ⟨(start, last), rfl, ?_⟩
    rw [checkFrom_eq, TypeReader.read_eq_readAt, hread]
    rcases last with f | _ | stop
    · rfl
    · rfl
    · exact absurd rfl (hlast stop)

/-- Counting counts all calls but the last. -/
theorem countFrom_eq_calls (r : TypeReader) (text : Bytes) (start count : Nat) :
    countFrom r count start (text.drop start) + 1 = count + (r.calls text start).length := by
  fun_induction TypeReader.calls r text start generalizing count with
  | case1 r start r' stop hread ih =>
    have hnext : (r.read start (text.drop start)).1 = r' := congrArg Prod.fst hread
    rw [countFrom_eq, TypeReader.read_eq_readAt, hread, hnext, List.length_cons]
    exact (ih (count + 1)).trans (by omega)
  | case2 r start r' last hlast hread =>
    rw [countFrom_eq, TypeReader.read_eq_readAt, hread, List.length_singleton]
    rcases last with f | _ | stop
    · rfl
    · rfl
    · exact absurd rfl (hlast stop)

/-- **Reading makes progress and is local.** Whatever a reader was used for, at an offset in a text it
gives a fault, or an end behind that offset and not behind the text. A type is read wherever its bytes
stand, in any text, by any reader that allows as much. A fault is reported wherever the bytes up to the
end stand, by any reader for the same limit and scope, and is moved as they are. So the calls that
check a text, or count its types, each start where the type before ends, and there is at most one for
each byte and one more. -/
theorem reading_is_local :
    (∀ (r : TypeReader) (text : Bytes) (start : Nat), start < text.length →
      ((∃ f, (r.readAt text start).2 = .error f) ∨
        ∃ stop, (r.readAt text start).2 = .ok (some stop) ∧ start < stop ∧ stop ≤ text.length) ∧
      (∀ stop, (r.readAt text start).2 = .ok (some stop) →
        ∀ (r' : TypeReader) (text' : Bytes) (start' : Nat), r.limit ≤ r'.limit →
          r'.scope = r.scope ∨ r'.scope = .element →
          (text.drop start).take (stop - start) <+: text'.drop start' →
          (r'.readAt text' start').2 = .ok (some (start' + (stop - start)))) ∧
      (∀ f, (r.readAt text start).2 = .error f → ∃ g : Fault, f = g.shift start ∧
        ∀ (r' : TypeReader) (text' : Bytes) (start' : Nat), r'.limit = r.limit →
          r'.scope = r.scope → text'.drop start' = text.drop start →
          (r'.readAt text' start').2 = .error (g.shift start'))) ∧
    ∀ (r : TypeReader) (text : Bytes) (count : Nat),
      r.InTurn text 0 (r.calls text 0) ∧
      (r.calls text 0).Pairwise (fun c d => c.1 < d.1) ∧
      (∀ c ∈ r.calls text 0, c.1 ≤ text.length) ∧
      (r.calls text 0).length ≤ text.length + 1 ∧
      (∃ c, (r.calls text 0).getLast? = some c ∧ checkFrom r 0 text = c.2.map fun _ => ()) ∧
      countFrom r count 0 text + 1 = count + (r.calls text 0).length := by
  constructor
  · intro r text start hstart
    refine ⟨?_, ?_, ?_⟩
    · rcases r.readAt_cases hstart with hfault | ⟨stop, hstop⟩
      · exact Or.inl hfault
      · exact Or.inr ⟨stop, hstop, TypeReader.readAt_some hstop⟩
    · intro stop hstop r' text' start' hlimit hscope hbytes
      exact TypeReader.readAt_move hstop hlimit hscope hbytes
    · intro f hf
      obtain ⟨hne, g, hg, rfl⟩ := TypeReader.readAt_error_iff.mp hf
      refine ⟨g, rfl, ?_⟩
      intro r' text' start' hlimit hscope hrest
      rw [TypeReader.readAt_error_iff, hrest, hlimit, hscope]
      exact ⟨hne, g, hg, rfl⟩
  · intro r text count
    obtain ⟨hsorted, hwithin⟩ := r.calls_ascending (Nat.zero_le text.length)
    have hlength := r.length_calls_le (Nat.zero_le text.length)
    refine ⟨r.inTurn_calls text 0, hsorted, fun c hc => (hwithin c hc).2, by omega, ?_, ?_⟩
    · exact checkFrom_eq_calls r text 0
    · exact countFrom_eq_calls r text 0 count

/-- In `ia{sv}(` a reader that a fault has left inside an array still reads `a{sv}` at 1, and so it is
read at 2 in `uua{sv}y`; the open struct is a fault at 6, and one at 0 where there is nothing else. -/
theorem reading_is_local_dict :
    let left : TypeReader := ⟨⟨1, 1⟩, .sequence, ⟨[⟨.array, 4, 0⟩], ⟨1, 0⟩⟩⟩
    let text : Bytes := [0x69, 0x61, 0x7b, 0x73, 0x76, 0x7d, 0x28]
    (left.readAt text 1).2 = .ok (some 6) ∧
      ((TypeReader.unbounded .element).readAt [0x75, 0x75, 0x61, 0x7b, 0x73, 0x76, 0x7d, 0x79] 2).2 =
        .ok (some 7) ∧
      (left.readAt text 6).2 = .error ⟨6, .unterminated⟩ ∧
      ((TypeReader.new ⟨1, 1⟩ .sequence).readAt [0x28] 0).2 = .error ⟨0, .unterminated⟩ ∧
      (left.calls text 0).length ≤ 8 := by
  intro left text
  have htype : (left.readAt text 1).2 = .ok (some 6) := rfl
  have hfault : (left.readAt text 6).2 = .error ⟨6, .unterminated⟩ := rfl
  obtain ⟨hread, hcalls⟩ := reading_is_local
  obtain ⟨-, hmove, -⟩ := hread left text 1 (by decide)
  obtain ⟨-, -, hmoveFault⟩ := hread left text 6 (by decide)
  obtain ⟨g, hg, hmoved⟩ := hmoveFault _ hfault
  obtain rfl : g = ⟨0, .unterminated⟩ := by
    obtain ⟨offset, cause⟩ := g
    obtain ⟨hoffset, rfl⟩ := Fault.mk.inj hg
    obtain rfl : 0 = offset := Nat.add_left_cancel hoffset
    rfl
  obtain ⟨-, -, -, hlength, -⟩ := hcalls left text 0
  exact ⟨htype,
    hmove 6 htype _ _ 2 ⟨by decide, by decide⟩ (Or.inr rfl) ⟨[0x79], rfl⟩, hfault,
    hmoved _ [0x28] 0 rfl rfl rfl, hlength⟩

end DBusTypes
