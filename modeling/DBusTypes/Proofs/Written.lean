import DBusTypes.Proofs.Numerals
import DBusTypes.Proofs.Quoting

/-!
# Ways to write a value

A value may be written with blanks wherever a line may be broken: behind an opening bracket, a colon or
a comma, and in front of a closing bracket. Whichever way it is written, it is read back. A value on
one line has no blanks at all, and one over several lines has line breaks and indentation.

* `Json.Written` — the ways to write a value
* `Json.value_written`, `Json.parse_written` — **a value is read back from any way to write it**
* `Json.written_compact`, `Json.written_pretty` — the two ways in which values are printed
-/

namespace DBusTypes.Json

/-! ## Blanks -/

/-- Whether bytes are blanks only. -/
def Blank (w : Bytes) : Prop := ∀ c ∈ w, c = 0x20 ∨ c = 0x09 ∨ c = 0x0a ∨ c = 0x0d

/-- Whether bytes start with something else than a blank. -/
def Solid (u : Bytes) : Prop := ∃ c r, u = c :: r ∧ ¬ Blank [c]

variable {w u v rest k : Bytes} {j x y : Json} {xs : List Json} {m : Bytes × Json}
  {ms : List (Bytes × Json)} {fuel : Nat}

theorem blank_nil : Blank [] := by simp [Blank]

theorem blank_space : Blank [0x20] := by simp [Blank]

theorem blank_newline (level : Nat) : Blank (newline level) := by
  intro c hc
  rcases List.mem_cons.mp hc with rfl | hc
  · exact Or.inr (Or.inr (Or.inl rfl))
  · exact Or.inl (List.eq_of_mem_replicate hc)

theorem skipBlank_append (hw : Blank w) (u : Bytes) : skipBlank (w ++ u) = skipBlank u := by
  refine List.dropWhile_append_of_pos fun c hc => ?_
  rcases hw c hc with rfl | rfl | rfl | rfl <;> rfl

theorem skipBlank_of_blank (hw : Blank w) : skipBlank w = [] := by
  have hskip := skipBlank_append hw []
  rwa [List.append_nil] at hskip

theorem skipBlank_of_solid (h : Solid u) : skipBlank u = u := by
  obtain ⟨c, r, rfl, hc⟩ := h
  refine List.dropWhile_cons_of_neg fun hp => hc ?_
  simp only [Bool.or_eq_true, beq_iff_eq] at hp
  intro d hd
  obtain rfl := List.mem_singleton.mp hd
  rcases hp with ((hp | hp) | hp) | hp <;> simp [hp]

theorem Solid.append (h : Solid u) (r : Bytes) : Solid (u ++ r) := by
  obtain ⟨c, r', rfl, hc⟩ := h
  exact ⟨c, r' ++ r, rfl, hc⟩

theorem endsNumber_append (hw : Blank w) (hu : EndsNumber u) : EndsNumber (w ++ u) := by
  cases w with
  | nil => exact hu
  | cons c w =>
    intro d hd
    obtain rfl : c = d := by simpa using hd
    rcases hw c List.mem_cons_self with rfl | rfl | rfl | rfl <;> decide

/-- No number goes on with a line feed, a comma or a closing bracket. -/
theorem endsNumber_cons {c : UInt8} (hc : c = 0x0a ∨ c = 0x2c ∨ c = 0x5d ∨ c = 0x7d) (r : Bytes) :
    EndsNumber (c :: r) := by
  intro d hd
  obtain rfl : c = d := by simpa using hd
  rcases hc with rfl | rfl | rfl | rfl <;> decide

/-! ## Written values -/

mutual

/-- The ways to write a value. -/
inductive Written : Json → Bytes → Prop
  | null : Written .null (utf8 "null")
  | bool (b : Bool) : Written (.bool b) (utf8 (toString b))
  | whole (n : Int) : Written (.number (.whole n)) (utf8 (toString n))
  | string (s : Bytes) : Written (.string s) (quoted s)
  | noItems : Written (.array []) [0x5b, 0x5d]
  | items {w u : Bytes} {x : Json} {xs : List Json} (hw : Blank w) (h : WrittenItems x xs u) :
      Written (.array (x :: xs)) (0x5b :: (w ++ u))
  | noMembers : Written (.object []) [0x7b, 0x7d]
  | members {w u : Bytes} {m : Bytes × Json} {ms : List (Bytes × Json)} (hw : Blank w)
      (h : WrittenMembers m ms u) : Written (.object (m :: ms)) (0x7b :: (w ++ u))

/-- The ways to write an item, the items behind it, and the end of the array. -/
inductive WrittenItems : Json → List Json → Bytes → Prop
  | last {x : Json} {u w : Bytes} (h : Written x u) (hw : Blank w) :
      WrittenItems x [] (u ++ (w ++ [0x5d]))
  | cons {x y : Json} {ys : List Json} {u w v : Bytes} (h : Written x u) (hw : Blank w)
      (hs : WrittenItems y ys v) : WrittenItems x (y :: ys) (u ++ 0x2c :: (w ++ v))

/-- The ways to write a member, the members behind it, and the end of the object. -/
inductive WrittenMembers : Bytes × Json → List (Bytes × Json) → Bytes → Prop
  | last {k : Bytes} {x : Json} {w u z : Bytes} (hw : Blank w) (h : Written x u) (hz : Blank z) :
      WrittenMembers (k, x) [] (quoted k ++ 0x3a :: (w ++ (u ++ (z ++ [0x7d]))))
  | cons {k : Bytes} {x : Json} {m : Bytes × Json} {ms : List (Bytes × Json)} {w u z v : Bytes}
      (hw : Blank w) (h : Written x u) (hz : Blank z) (hs : WrittenMembers m ms v) :
      WrittenMembers (k, x) (m :: ms) (quoted k ++ 0x3a :: (w ++ (u ++ 0x2c :: (z ++ v))))

end

/-- A value starts with a byte that is no blank, and that does not end an array. -/
theorem Written.head (h : Written j u) : ∃ c r, u = c :: r ∧ ¬ Blank [c] ∧ c ≠ 0x5d := by
  cases h with
  | null => exact ⟨_, _, rfl, by simp [Blank], by decide⟩
  | bool b => cases b <;> exact ⟨_, _, rfl, by simp [Blank], by decide⟩
  | whole n =>
    obtain ⟨c, r, hn, hc⟩ := head_toString n
    refine ⟨c, r, hn, ?_, ?_⟩
    · intro hblank
      rcases hblank c List.mem_cons_self with rfl | rfl | rfl | rfl <;> simp [isDigit] at hc
    · rintro rfl
      simp [isDigit] at hc
  | string s | noItems | noMembers | items | members =>
    exact ⟨_, _, rfl, by simp [Blank], by decide⟩

theorem Written.solid (h : Written j u) : Solid u := by
  obtain ⟨c, r, hu, hc, -⟩ := h.head
  exact ⟨c, r, hu, hc⟩

theorem WrittenItems.head (h : WrittenItems x xs u) :
    ∃ c r, u = c :: r ∧ ¬ Blank [c] ∧ c ≠ 0x5d := by
  cases h with
  | last h hw =>
    obtain ⟨c, r, rfl, hc, hne⟩ := h.head
    exact ⟨c, _, rfl, hc, hne⟩
  | cons h hw hs =>
    obtain ⟨c, r, rfl, hc, hne⟩ := h.head
    exact ⟨c, _, rfl, hc, hne⟩

theorem WrittenMembers.head (h : WrittenMembers m ms u) : ∃ r, u = 0x22 :: r := by
  cases h <;> exact ⟨_, rfl⟩

/-! ## Reading one step -/

theorem value_whole {n : Int} (h : EndsNumber rest) :
    value (fuel + 1) (utf8 (toString n) ++ rest) = some (.number (.whole n), rest) := by
  have hread := signed_toString n h
  obtain ⟨c, r, hn, hc⟩ := head_toString n
  have hne : ∀ d : UInt8, d ≠ 0x2d → isDigit d = false → c ≠ d := by
    rintro d hd hdigit rfl
    rcases hc with hc | hc
    · exact hd hc
    · exact absurd (hdigit.symm.trans hc) (by simp)
  rw [hn, List.cons_append] at hread ⊢
  -- None of the bytes that other values start with starts a number.
  rw [value, if_neg (hne _ (by decide) rfl), if_neg (hne _ (by decide) rfl),
    if_neg (hne _ (by decide) rfl), if_neg (hne _ (by decide) rfl),
    if_neg (hne _ (by decide) rfl), if_neg (hne _ (by decide) rfl), hread]
  rfl

theorem value_items (hw : Blank w) (h : WrittenItems x xs u) :
    value (fuel + 1) (0x5b :: (w ++ u) ++ rest) =
      (items fuel (u ++ rest)).map fun r => (.array r.1, r.2) := by
  obtain ⟨c, r, rfl, hc, hne⟩ := h.head
  have hskip : skipBlank (w ++ c :: r ++ rest) = c :: (r ++ rest) := by
    rw [List.append_assoc, skipBlank_append hw]
    exact skipBlank_of_solid ⟨c, _, rfl, hc⟩
  rw [List.cons_append, value, if_neg (by decide), if_pos rfl, hskip]
  exact if_neg hne

theorem value_members (hw : Blank w) (h : WrittenMembers m ms u) :
    value (fuel + 1) (0x7b :: (w ++ u) ++ rest) =
      (members fuel (u ++ rest)).map fun r => (.object r.1, r.2) := by
  obtain ⟨r, rfl⟩ := h.head
  have hskip : skipBlank (w ++ 0x22 :: r ++ rest) = 0x22 :: (r ++ rest) := by
    rw [List.append_assoc, skipBlank_append hw]
    rfl
  rw [List.cons_append, value, if_neg (by decide), if_neg (by decide), if_pos rfl, hskip]
  rfl

theorem items_last (hx : value fuel (u ++ (w ++ 0x5d :: rest)) = some (x, w ++ 0x5d :: rest))
    (hw : Blank w) : items (fuel + 1) (u ++ (w ++ 0x5d :: rest)) = some ([x], rest) := by
  have hskip : skipBlank (w ++ 0x5d :: rest) = 0x5d :: rest := skipBlank_append hw _
  rw [items, hx]
  simp only [hskip]
  rfl

theorem items_cons (hx : value fuel (u ++ 0x2c :: (w ++ v)) = some (x, 0x2c :: (w ++ v)))
    (hw : Blank w) (hv : Solid v) :
    items (fuel + 1) (u ++ 0x2c :: (w ++ v)) = (items fuel v).map fun r => (x :: r.1, r.2) := by
  have hskip : skipBlank (0x2c :: (w ++ v)) = 0x2c :: (w ++ v) := rfl
  have hnext : skipBlank (w ++ v) = v := by rw [skipBlank_append hw, skipBlank_of_solid hv]
  rw [items, hx]
  simp only [hskip, hnext]
  rfl

/-- Behind a key and a colon there is a value. -/
theorem members_quoted (fuel : Nat) (k rest : Bytes) :
    members (fuel + 1) (quoted k ++ 0x3a :: rest) =
      match value fuel (skipBlank rest) with
      | none => none
      | some (v, rest) =>
        match skipBlank rest with
        | [] => none
        | c :: rest =>
          if c = 0x7d then some ([(k, v)], rest)
          else if c = 0x2c then
            (members fuel (skipBlank rest)).map fun r => ((k, v) :: r.1, r.2)
          else none := by
  have htail : stringTail [] (k.flatMap escape ++ [0x22] ++ 0x3a :: rest) =
      some (k, 0x3a :: rest) := by
    rw [List.append_assoc]
    exact stringTail_quoted [] k (0x3a :: rest)
  rw [quoted, List.cons_append, members]
  simp only [if_pos, htail]
  rfl

theorem members_last (hu : Solid u) (hw : Blank w) {z : Bytes} (hz : Blank z)
    (hx : value fuel (u ++ (z ++ 0x7d :: rest)) = some (x, z ++ 0x7d :: rest)) :
    members (fuel + 1) (quoted k ++ 0x3a :: (w ++ (u ++ (z ++ 0x7d :: rest)))) =
      some ([(k, x)], rest) := by
  have hskip : skipBlank (z ++ 0x7d :: rest) = 0x7d :: rest := skipBlank_append hz _
  rw [members_quoted, skipBlank_append hw, skipBlank_of_solid (hu.append _), hx]
  simp only [hskip]
  rfl

theorem members_cons (hu : Solid u) (hw : Blank w) {z : Bytes} (hz : Blank z) (hv : Solid v)
    (hx : value fuel (u ++ 0x2c :: (z ++ v)) = some (x, 0x2c :: (z ++ v))) :
    members (fuel + 1) (quoted k ++ 0x3a :: (w ++ (u ++ 0x2c :: (z ++ v)))) =
      (members fuel v).map fun r => ((k, x) :: r.1, r.2) := by
  have hskip : skipBlank (0x2c :: (z ++ v)) = 0x2c :: (z ++ v) := rfl
  have hnext : skipBlank (z ++ v) = v := by rw [skipBlank_append hz, skipBlank_of_solid hv]
  rw [members_quoted, skipBlank_append hw, skipBlank_of_solid (hu.append _), hx]
  simp only [hskip, hnext]
  rfl

/-! ## Reading values -/

-- By induction on the fuel: each step down takes one, and two bytes of the text leave enough.
mutual

/-- **A value is read back from any way to write it**, if what follows does not go on with it. -/
theorem value_written {fuel : Nat} {j : Json} {u rest : Bytes} (h : Written j u)
    (hf : 2 * u.length ≤ fuel) (hr : EndsNumber rest) :
    value fuel (u ++ rest) = some (j, rest) := by
  cases fuel with
  | zero =>
    obtain ⟨c, r, rfl, -⟩ := h.head
    simp at hf
  | succ fuel =>
    cases h with
    | null => rfl
    | bool b => cases b <;> rfl
    | whole n => exact value_whole hr
    | string s => exact value_quoted fuel s rest
    | noItems | noMembers => rfl
    | items hw h =>
      rw [value_items hw h, items_written h (by simp at hf; omega)]
      rfl
    | members hw h =>
      rw [value_members hw h, members_written h (by simp at hf; omega)]
      rfl

theorem items_written {fuel : Nat} {x : Json} {xs : List Json} {u rest : Bytes}
    (h : WrittenItems x xs u) (hf : 2 * u.length + 1 ≤ fuel) :
    items fuel (u ++ rest) = some (x :: xs, rest) := by
  cases fuel with
  | zero => omega
  | succ fuel =>
    cases h with
    | @last x u w h hw =>
      have hends : EndsNumber (w ++ 0x5d :: rest) :=
        endsNumber_append hw (endsNumber_cons (by simp) rest)
      have hx : value fuel (u ++ (w ++ 0x5d :: rest)) = some (x, w ++ 0x5d :: rest) :=
        value_written h (by simp at hf; omega) hends
      rw [List.append_assoc, List.append_assoc]
      exact items_last hx hw
    | @cons x y ys u w v h hw hs =>
      have hx : value fuel (u ++ 0x2c :: (w ++ (v ++ rest))) = some (x, 0x2c :: (w ++ (v ++ rest))) :=
        value_written h (by simp at hf; omega) (endsNumber_cons (by simp) _)
      have hsolid : Solid (v ++ rest) := by
        obtain ⟨c, r, rfl, hc, -⟩ := hs.head
        exact ⟨c, r ++ rest, rfl, hc⟩
      rw [List.append_assoc, List.cons_append, List.append_assoc, items_cons hx hw hsolid,
        items_written hs (by simp at hf; omega)]
      rfl

theorem members_written {fuel : Nat} {m : Bytes × Json} {ms : List (Bytes × Json)} {u rest : Bytes}
    (h : WrittenMembers m ms u) (hf : 2 * u.length + 1 ≤ fuel) :
    members fuel (u ++ rest) = some (m :: ms, rest) := by
  cases fuel with
  | zero => omega
  | succ fuel =>
    cases h with
    | @last k x w u z hw h hz =>
      have hends : EndsNumber (z ++ 0x7d :: rest) :=
        endsNumber_append hz (endsNumber_cons (by simp) rest)
      have hx : value fuel (u ++ (z ++ 0x7d :: rest)) = some (x, z ++ 0x7d :: rest) :=
        value_written h (by simp at hf; omega) hends
      simp only [List.append_assoc, List.cons_append, List.nil_append]
      exact members_last h.solid hw hz hx
    | @cons k x m ms w u z v hw h hz hs =>
      have hx : value fuel (u ++ 0x2c :: (z ++ (v ++ rest))) = some (x, 0x2c :: (z ++ (v ++ rest))) :=
        value_written h (by simp at hf; omega) (endsNumber_cons (by simp) _)
      have hsolid : Solid (v ++ rest) := by
        obtain ⟨r, rfl⟩ := hs.head
        exact ⟨0x22, r ++ rest, rfl, by simp [Blank]⟩
      simp only [List.append_assoc, List.cons_append]
      rw [members_cons h.solid hw hz hsolid hx, members_written hs (by simp at hf; omega)]
      rfl

end

/-- **A value that is alone is read back**, with or without blanks behind it. -/
theorem parse_written (h : Written j u) (hw : Blank w) : parse (u ++ w) = some j := by
  have hends : EndsNumber (w ++ []) := endsNumber_append hw (by simp [EndsNumber])
  rw [List.append_nil] at hends
  have hvalue : value (2 * (u ++ w).length + 2) (u ++ w) = some (j, w) :=
    value_written h (by simp; omega) hends
  rw [parse, skipBlank_of_solid (h.solid.append w), hvalue]
  simp [skipBlank_of_blank hw]

/-! ## Printed values -/

/-- Whether all numbers in a value are whole. -/
inductive Whole : Json → Prop
  | null : Whole .null
  | bool (b : Bool) : Whole (.bool b)
  | number (n : Int) : Whole (.number (.whole n))
  | string (s : Bytes) : Whole (.string s)
  | array {xs : List Json} (h : ∀ x ∈ xs, Whole x) : Whole (.array xs)
  | object {ms : List (Bytes × Json)} (h : ∀ m ∈ ms, Whole m.2) : Whole (.object ms)

theorem writtenItems_compact (hx : Written x (compact x)) (hxs : ∀ y ∈ xs, Written y (compact y)) :
    WrittenItems x xs (compact x ++ compactItems xs) := by
  induction xs generalizing x with
  | nil => exact .last hx blank_nil
  | cons y ys ih =>
    exact .cons (w := []) hx blank_nil
      (ih (hxs y List.mem_cons_self) fun z hz => hxs z (List.mem_cons_of_mem y hz))

theorem writtenMembers_compact (hx : Written x (compact x))
    (hms : ∀ m ∈ ms, Written m.2 (compact m.2)) :
    WrittenMembers (k, x) ms (quoted k ++ 0x3a :: (compact x ++ compactMembers ms)) := by
  induction ms generalizing k x with
  | nil => exact .last (w := []) blank_nil hx blank_nil
  | cons m ms ih =>
    have hrest : WrittenMembers m ms (quoted m.1 ++ 0x3a :: (compact m.2 ++ compactMembers ms)) :=
      ih (hms m List.mem_cons_self) fun z hz => hms z (List.mem_cons_of_mem m hz)
    exact .cons (w := []) (z := []) blank_nil hx blank_nil hrest

/-- A value on one line is written without blanks. -/
theorem written_compact (h : j.Whole) : Written j (compact j) := by
  induction h with
  | null => exact .null
  | bool b => cases b <;> exact .bool _
  | number n => exact .whole n
  | string s => exact .string s
  | @array xs _ ih =>
    cases xs with
    | nil => exact .noItems
    | cons x xs =>
      exact .items (w := []) blank_nil (writtenItems_compact (ih x List.mem_cons_self)
        fun y hy => ih y (List.mem_cons_of_mem x hy))
  | @object ms _ ih =>
    cases ms with
    | nil => exact .noMembers
    | cons m ms =>
      exact .members (w := []) blank_nil (writtenMembers_compact (ih m List.mem_cons_self)
        fun m' hm => ih m' (List.mem_cons_of_mem m hm))

theorem writtenItems_pretty (level : Nat) (hx : ∀ n, Written x (pretty n x))
    (hxs : ∀ y ∈ xs, ∀ n, Written y (pretty n y)) :
    WrittenItems x xs (pretty (level + 1) x ++ prettyItems level xs) := by
  induction xs generalizing x with
  | nil => exact .last (hx _) (blank_newline level)
  | cons y ys ih =>
    exact .cons (hx _) (blank_newline _)
      (ih (hxs y List.mem_cons_self) fun z hz => hxs z (List.mem_cons_of_mem y hz))

theorem writtenMembers_pretty (level : Nat) (hx : ∀ n, Written x (pretty n x))
    (hms : ∀ m ∈ ms, ∀ n, Written m.2 (pretty n m.2)) :
    WrittenMembers (k, x) ms
      (quoted k ++ (utf8 ": " ++ (pretty (level + 1) x ++ prettyMembers level ms))) := by
  induction ms generalizing k x with
  | nil => exact .last (w := [0x20]) blank_space (hx _) (blank_newline level)
  | cons m ms ih =>
    have hrest : WrittenMembers m ms
        (quoted m.1 ++ (utf8 ": " ++ (pretty (level + 1) m.2 ++ prettyMembers level ms))) :=
      ih (hms m List.mem_cons_self) fun z hz => hms z (List.mem_cons_of_mem m hz)
    exact .cons (w := [0x20]) blank_space (hx _) (blank_newline _) hrest

/-- A value over several lines is written with blanks where lines are broken. -/
theorem written_pretty (h : j.Whole) (level : Nat) : Written j (pretty level j) := by
  induction h generalizing level with
  | null => exact .null
  | bool b => cases b <;> exact .bool _
  | number n => exact .whole n
  | string s => exact .string s
  | @array xs _ ih =>
    cases xs with
    | nil => exact .noItems
    | cons x xs =>
      exact .items (blank_newline _) (writtenItems_pretty level (ih x List.mem_cons_self)
        fun y hy => ih y (List.mem_cons_of_mem x hy))
  | @object ms _ ih =>
    cases ms with
    | nil => exact .noMembers
    | cons m ms =>
      exact .members (blank_newline _) (writtenMembers_pretty level (ih m List.mem_cons_self)
        fun m' hm => ih m' (List.mem_cons_of_mem m hm))

end DBusTypes.Json
