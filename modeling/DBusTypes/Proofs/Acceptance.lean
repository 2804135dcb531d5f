import DBusTypes.Checking
import DBusTypes.Proofs.Paths
import DBusTypes.Proofs.Reading

/-!
# What is accepted

Checking accepts the signatures that the grammar describes, within limits, and nothing else.

* `TypeReader.read_some_iff`, `TypeReader.readAt_some_iff` — a reader reads an element where its text
  stands
* `checkFrom_ok_iff` — it reads up to the end where the texts of types stand one after the other
* `countTypes_renderAll` — the types of a text are counted, all of them
* `check_eq_ok_iff` — **checking accepts exactly the grammar within the limits**
-/

namespace DBusTypes

namespace Element

/-- In a sequence of types, what is allowed is a type. -/
theorem allowed_sequence {limit : Depth} {e : Element} :
    e.Allowed limit .sequence ↔ ∃ t, e = type t ∧ Ty.Fit limit [t] := by
  have hfit : ∀ t : Ty, Ty.Fit limit [t] ↔
      t.containers ≤ limit.containers.toNat ∧ t.entries ≤ limit.entries.toNat := by
    intro t
    simp [Ty.Fit, Ty.containersAll, Ty.entriesAll]
  constructor
  · rintro ⟨hk, hd⟩
    obtain ⟨t, rfl⟩ := kind_ne_entry (e := e) (fun h => by simpa using hk h)
    exact ⟨t, rfl, (hfit t).mpr hd⟩
  · rintro ⟨t, rfl, ht⟩
    exact ⟨fun h => absurd h (kind_type_ne_entry t), (hfit t).mp ht⟩

end Element

/-- A type that fits is allowed in a sequence of types. -/
theorem Ty.Fit.allowed {limit : Depth} {t : Ty} (h : Fit limit [t]) :
    (Element.type t).Allowed limit .sequence := Element.allowed_sequence.mpr ⟨t, rfl, h⟩

/-! ## One type -/

namespace TypeReader

variable {r : TypeReader} {offset stop : Nat} {bytes rest : Bytes}

/-- Reading changes neither what a reader is for nor its limit. -/
theorem read_reader (r : TypeReader) (offset : Nat) (bytes : Bytes) :
    (r.read offset bytes).1.limit = r.limit ∧ (r.read offset bytes).1.scope = r.scope := by
  unfold read
  split <;> exact ⟨rfl, rfl⟩

theorem read_nil (r : TypeReader) (offset : Nat) : r.read offset [] = (r, .ok none) := rfl

/-- Where there are bytes, a type is read that starts with nothing open. -/
theorem read_eq_run (h : bytes ≠ []) :
    (r.read offset bytes).2 = (Nest.start.run r.limit r.scope offset bytes).2.map some := by
  rw [read, if_neg (by simpa using h)]

/-- There is nothing to read at the end, and only there. -/
theorem read_none_iff : (r.read offset bytes).2 = .ok none ↔ bytes = [] := by
  by_cases hne : bytes = []
  · simp [hne, read_nil]
  · rw [read_eq_run hne]
    cases (Nest.start.run r.limit r.scope offset bytes).2 <;> simp [Except.map, hne]

/-- **A reader reads an element exactly where its text stands.** -/
theorem read_some_iff : (r.read offset bytes).2 = .ok (some (stop, rest)) ↔
    ∃ e : Element, e.Allowed r.limit r.scope ∧ bytes = e.render ++ rest ∧
      stop = offset + e.render.length := by
  have hrun : (Nest.start.run r.limit r.scope offset bytes).2 = .ok (stop, rest) ↔
      ∃ e : Element, e.Allowed r.limit r.scope ∧ bytes = e.render ++ rest ∧
        stop = offset + e.render.length := by
    constructor
    · intro h
      obtain ⟨e, he, hb, hstop, -⟩ := Stem.run_start_ok_iff.mp (Prod.ext rfl h)
      exact ⟨e, he, hb, hstop⟩
    · rintro ⟨e, he, hb, hstop⟩
      rw [Stem.run_start_ok_iff.mpr ⟨e, he, hb, hstop, rfl⟩]
  rw [← hrun]
  by_cases hne : bytes = []
  · rw [hne]
    simp [read_nil, Nest.run]
  · rw [read_eq_run hne]
    cases (Nest.start.run r.limit r.scope offset bytes).2 <;> simp [Except.map]

/-- Reading at an offset in a text, the bytes that follow a type are those from its end on. -/
theorem read_eq_readAt (r : TypeReader) (text : Bytes) (start : Nat) :
    (r.read start (text.drop start)).2 =
      (r.readAt text start).2.map (·.map fun stop => (stop, text.drop stop)) := by
  rw [readAt]
  cases hread : (r.read start (text.drop start)).2 with
  | error f => rfl
  | ok found =>
    cases found with
    | none => rfl
    | some found =>
      obtain ⟨stop, rest⟩ := found
      obtain ⟨front, -, htext, rfl⟩ := read_some hread
      have hrest : text.drop (start + front.length) = rest := by
        rw [← List.drop_drop, htext, List.drop_left]
      simp [Except.map, hrest]

/-- **A type is read at an offset exactly where the text of an element stands there.** -/
theorem readAt_some_iff {text : Bytes} {start : Nat} : (r.readAt text start).2 = .ok (some stop) ↔
    ∃ (e : Element) (rest : Bytes), e.Allowed r.limit r.scope ∧
      text.drop start = e.render ++ rest ∧ stop = start + e.render.length := by
  constructor
  · intro h
    have hread := r.read_eq_readAt text start
    rw [h] at hread
    obtain ⟨e, he, htext, hstop⟩ := read_some_iff.mp hread
    exact ⟨e, _, he, htext, hstop⟩
  · rintro ⟨e, rest, he, htext, hstop⟩
    have hread := read_some_iff.mpr ⟨e, he, htext, hstop⟩
    rw [readAt, hread]
    rfl

/-- The first of several types is read where types are expected. -/
theorem read_renderAll_cons {t : Ty} (hr : r.scope = .sequence) (ht : Ty.Fit r.limit [t])
    (offset : Nat) (ts : List Ty) : (r.read offset (Ty.renderAll (t :: ts))).2 =
      .ok (some (offset + t.render.length, Ty.renderAll ts)) := by
  have he : Element.Allowed r.limit r.scope (.type t) := by
    rw [hr]
    exact Element.allowed_sequence.mpr ⟨t, rfl, ht⟩
  exact read_some_iff.mpr ⟨.type t, he, rfl, rfl⟩

end TypeReader

/-! ## All types of a text -/

theorem checkFrom_eq (r : TypeReader) (offset : Nat) (bytes : Bytes) :
    checkFrom r offset bytes =
      match (r.read offset bytes).2 with
      | .error f => .error f
      | .ok none => .ok ()
      | .ok (some (stop, rest)) => checkFrom (r.read offset bytes).1 stop rest := by
  rw [checkFrom]
  split <;> next h => rw [h]

/-- A sequence of types is read up to its end exactly where the texts of types follow each other. -/
theorem checkFrom_ok_iff {r : TypeReader} {offset : Nat} {bytes : Bytes} (hr : r.scope = .sequence) :
    checkFrom r offset bytes = .ok () ↔ ∃ ts, bytes = Ty.renderAll ts ∧ Ty.Fit r.limit ts := by
  constructor
  · intro h
    fun_induction checkFrom r offset bytes with
    | case1 r offset bytes r' f hread => simp at h
    | case2 r offset bytes r' hread =>
      exact ⟨[], TypeReader.read_none_iff.mp (congrArg Prod.snd hread), Nat.zero_le _, Nat.zero_le _⟩
    | case3 r offset bytes r' stop rest hread ih =>
      -- The rest is read by a reader for the same limit and scope.
      have hsame : r'.limit = r.limit ∧ r'.scope = r.scope := by
        simpa [hread] using r.read_reader offset bytes
      obtain ⟨e, he, rfl, -⟩ := TypeReader.read_some_iff.mp (congrArg Prod.snd hread)
      rw [hr] at he
      obtain ⟨t, rfl, ht⟩ := Element.allowed_sequence.mp he
      obtain ⟨ts, rfl, hts⟩ := ih (hsame.2.trans hr) h
      rw [hsame.1] at hts
      exact ⟨t :: ts, rfl, Ty.fit_cons.mpr ⟨ht, hts⟩⟩
  · rintro ⟨ts, rfl, hts⟩
    induction ts generalizing r offset with
    | nil => rw [checkFrom_eq, Ty.renderAll, TypeReader.read_nil]
    | cons t ts ih =>
      obtain ⟨ht, hts⟩ := Ty.fit_cons.mp hts
      obtain ⟨hlimit, hscope⟩ := r.read_reader offset (Ty.renderAll (t :: ts))
      rw [checkFrom_eq, TypeReader.read_renderAll_cons hr ht]
      exact ih (hscope.trans hr) (by rw [hlimit]; exact hts)

theorem countFrom_eq (r : TypeReader) (count offset : Nat) (bytes : Bytes) :
    countFrom r count offset bytes =
      match (r.read offset bytes).2 with
      | .ok (some (stop, rest)) => countFrom (r.read offset bytes).1 (count + 1) stop rest
      | _ => count := by
  rw [countFrom]
  split
  · next h => rw [h]
  · next h =>
    cases hr : r.read offset bytes with
    | mk r' res =>
      rcases res with f | _ | ⟨stop, rest⟩
      · rfl
      · rfl
      · exact absurd hr (h r' stop rest)

/-- Types that fit are counted, all of them. -/
theorem countFrom_renderAll {r : TypeReader} {count offset : Nat} {ts : List Ty}
    (hr : r.scope = .sequence) (h : Ty.Fit r.limit ts) :
    countFrom r count offset (Ty.renderAll ts) = count + ts.length := by
  induction ts generalizing r count offset with
  | nil =>
    rw [countFrom_eq]
    rfl
  | cons t ts ih =>
    obtain ⟨ht, hts⟩ := Ty.fit_cons.mp h
    obtain ⟨hlimit, hscope⟩ := r.read_reader offset (Ty.renderAll (t :: ts))
    rw [countFrom_eq, TypeReader.read_renderAll_cons hr ht]
    refine (ih (hscope.trans hr) (by rw [hlimit]; exact hts)).trans ?_
    rw [List.length_cons, Nat.add_assoc, Nat.add_comm 1]

theorem countTypes_renderAll {ts : List Ty} (h : Ty.Fit .top ts) :
    countTypes (Ty.renderAll ts) = ts.length := by
  have hr : (TypeReader.unbounded .sequence).scope = .sequence := rfl
  rw [countTypes, countFrom_renderAll hr h, Nat.zero_add]

/-! ## Signatures -/

theorem checkLength_ok_iff (limit : Option Nat) (bytes : Bytes) :
    checkLength limit bytes = .ok () ↔ ∀ n, limit = some n → bytes.length ≤ n := by
  cases limit with
  | none => simp [checkLength]
  | some n => simp [checkLength]

/-- A byte string is accepted if it is not too long and the text of types that fit. -/
theorem check_ok_iff_fit {limits : Limits} {bytes : Bytes} :
    check limits bytes = .ok () ↔ (∀ n, limits.length = some n → bytes.length ≤ n) ∧
      ∃ ts, bytes = Ty.renderAll ts ∧ Ty.Fit limits.depth ts := by
  rw [← checkLength_ok_iff]
  have hfrom : checkFrom (.new limits.depth .sequence) 0 bytes = .ok () ↔
      ∃ ts, bytes = Ty.renderAll ts ∧ Ty.Fit limits.depth ts := checkFrom_ok_iff rfl
  rw [← hfrom]
  rw [check, seq_eq_ok, mapError_eq_ok]

/-- **Checking accepts exactly the grammar within the limits.** A byte string is accepted if it is no
longer than its greatest length and the text of types, one after the other, none of whose paths has
more containers than the depths allow; and nothing else is. -/
theorem check_eq_ok_iff (limits : Limits) (bytes : Bytes) :
    check limits bytes = .ok () ↔
      (∀ n, limits.length = some n → bytes.length ≤ n) ∧
        ∃ ts, bytes = Ty.renderAll ts ∧
          ∀ p ∈ Ty.pathsAll ts,
            PathWithin limits.depth.containers.toNat limits.depth.entries.toNat p := by
  rw [check_ok_iff_fit]
  simp only [Ty.fit_iff_paths]

end DBusTypes
