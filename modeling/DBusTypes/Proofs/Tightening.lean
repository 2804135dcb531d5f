import DBusTypes.Proofs.Progress
import DBusTypes.Proofs.Values

/-!
# Tightening a limit

A limit stops the reading of a text, or it plays no part: as long as a limit is kept, each byte is
taken as any wider limit would have it taken, and every other fault is the same.

* `Limits` are ordered by `≤`, where having no greatest length is the widest
* `Nest.feed_tighten`, `Nest.feedAll_tighten` — a byte, and then all bytes of a text, under two limits
* `check_tighten` — **a tighter limit gives the same result, or it is broken itself**
* `limits_only_cut_off` — the same, told for each result
-/

namespace DBusTypes

/-! ## The order of limits -/

/-- A limit is below another if it allows no depth that the other does not. -/
instance : LE Depth := ⟨fun l m => l.containers ≤ m.containers ∧ l.entries ≤ m.entries⟩

/-- The same for all limits. Any greatest length is below none. -/
instance : LE Limits :=
  ⟨fun l m => l.depth ≤ m.depth ∧ ∀ n, m.length = some n → ∃ k, l.length = some k ∧ k ≤ n⟩

/-- Whether a fault is one of depth. -/
def Fault.TooDeep (f : Fault) : Prop := ∃ nesting limit, f.cause = .tooDeep nesting limit

/-- Whether a text is refused for its depth. -/
def Rejection.TooDeep (r : Rejection) : Prop := ∃ f : Fault, r = .fault f ∧ f.TooDeep

/-- Whether a text is refused for its length. -/
def Rejection.TooLong (r : Rejection) : Prop := ∃ length limit, r = .tooLong length limit

/-! ## Two limits at once -/

namespace Nest

variable {l m : Depth} {s : Nest} {offset : Nat}

theorem enter_tighten (h : l ≤ m) (container : Container) :
    s.enter m container offset = s.enter l container offset ∨
      ∃ f, s.enter l container offset = .error f ∧ f.TooDeep := by
  unfold enter
  by_cases hl : l.containers ≤ s.depth.containers
  · right
    rw [if_pos hl]
    exact ⟨_, rfl, _, _, rfl⟩
  · left
    have hm : ¬ m.containers ≤ s.depth.containers := fun hm => hl (UInt32.le_trans h.1 hm)
    rw [if_neg hl, if_neg hm]

theorem enterEntry_tighten (h : l ≤ m) :
    s.enterEntry m offset = s.enterEntry l offset ∨
      ∃ f, s.enterEntry l offset = .error f ∧ f.TooDeep := by
  unfold enterEntry
  by_cases hl : l.entries ≤ s.depth.entries
  · right
    rw [if_pos hl]
    exact ⟨_, rfl, _, _, rfl⟩
  · left
    have hm : ¬ m.entries ≤ s.depth.entries := fun hm => hl (UInt32.le_trans h.2 hm)
    rw [if_neg hl, if_neg hm]

/-- A container is opened alike, if it fits where it stands: a place is looked at before depth is. -/
theorem fits_enter_tighten (h : l ≤ m) (container : Container) :
    (s.fits offset false >>= fun _ => s.enter m container offset) =
        (s.fits offset false >>= fun _ => s.enter l container offset) ∨
      ∃ f, (s.fits offset false >>= fun _ => s.enter l container offset) = .error f ∧ f.TooDeep := by
  cases s.fits offset false with
  | error f => exact Or.inl rfl
  | ok u => exact enter_tighten h container

/-- **A byte is taken alike under a tighter limit**, unless that limit is broken there. -/
theorem feed_tighten (h : l ≤ m) (scope : Scope) (s : Nest) (offset : Nat) (b : UInt8) :
    s.feed m scope offset b = s.feed l scope offset b ∨
      ∃ f, s.feed l scope offset b = .error f ∧ f.TooDeep := by
  unfold feed
  cases Code.ofByte? b with
  | none =>
    left
    rfl
  | some c =>
    cases c with
    | basic k | variant =>
      left
      rfl
    | array => exact fits_enter_tighten h .array
    | struct => exact fits_enter_tighten h .struct
    | dictEntry =>
      by_cases ha : s.allowsEntry scope = true
      · simp only [if_pos ha]
        exact enterEntry_tighten h
      · left
        simp only [if_neg ha]

/-- **All bytes of a text are taken alike under a tighter limit**, up to where it is broken. -/
theorem feedAll_tighten (h : l ≤ m) (scope : Scope) (s : Nest) (offset : Nat) (bytes : Bytes) :
    feedAll m scope s offset bytes = feedAll l scope s offset bytes ∨
      ∃ f, feedAll l scope s offset bytes = .error f ∧ f.TooDeep := by
  induction bytes generalizing s offset with
  | nil => exact Or.inl rfl
  | cons b bytes ih =>
    rw [feedAll, feedAll]
    rcases feed_tighten h scope s offset b with hb | ⟨f, hf, hdeep⟩
    · rw [hb]
      cases s.feed l scope offset b with
      | error f => exact Or.inl rfl
      | ok s' => exact ih s' (offset + 1)
    · right
      rw [hf]
      exact ⟨f, rfl, hdeep⟩

end Nest

/-! ## Checking under two limits -/

theorem checkFrom_tighten {l m : Depth} (h : l ≤ m) (bytes : Bytes) :
    checkFrom (.new m .sequence) 0 bytes = checkFrom (.new l .sequence) 0 bytes ∨
      ∃ f, checkFrom (.new l .sequence) 0 bytes = .error f ∧ f.TooDeep := by
  rw [checkFrom_eq_feedAll, checkFrom_eq_feedAll]
  show (Nest.feedAll m .sequence .start 0 bytes).bind Nest.finish =
      (Nest.feedAll l .sequence .start 0 bytes).bind Nest.finish ∨
    ∃ f, (Nest.feedAll l .sequence .start 0 bytes).bind Nest.finish = .error f ∧ f.TooDeep
  rcases Nest.feedAll_tighten h .sequence .start 0 bytes with heq | ⟨f, hf, hdeep⟩
  · left
    rw [heq]
  · right
    rw [hf]
    exact ⟨f, rfl, hdeep⟩

/-- A length within a tighter limit is within the wider one. -/
theorem checkLength_tighten {l m : Limits} (h : l ≤ m) (bytes : Bytes) :
    checkLength m.length bytes = checkLength l.length bytes ∨
      ∃ length limit, checkLength l.length bytes = .error (.tooLong length limit) := by
  by_cases hl : checkLength l.length bytes = .ok ()
  · left
    rw [hl, checkLength_ok_iff]
    rw [checkLength_ok_iff] at hl
    intro n hn
    obtain ⟨k, hk, hkn⟩ := h.2 n hn
    exact Nat.le_trans (hl k hk) hkn
  · right
    unfold checkLength at hl ⊢
    split
    · next limit _ =>
      split
      · exact ⟨_, _, rfl⟩
      · next hlimit hlt => simp [hlimit, hlt] at hl
    · next hnone => simp [hnone] at hl

/-- **A tighter limit gives the same result, or it is broken itself.** -/
theorem check_tighten {l m : Limits} (h : l ≤ m) (bytes : Bytes) :
    check m bytes = check l bytes ∨
      ∃ r, check l bytes = .error r ∧ (r.TooDeep ∨ r.TooLong) := by
  unfold check
  rcases checkLength_tighten h bytes with hlen | ⟨length, limit, hlong⟩
  · rw [hlen]
    cases checkLength l.length bytes with
    | error r => exact Or.inl rfl
    | ok u =>
      rcases checkFrom_tighten h.1 bytes with hfrom | ⟨f, hf, hdeep⟩
      · left
        rw [hfrom]
      · right
        rw [hf]
        exact ⟨.fault f, rfl, Or.inl ⟨f, rfl, hdeep⟩⟩
  · right
    rw [hlong]
    exact ⟨.tooLong length limit, rfl, Or.inr ⟨length, limit, rfl⟩⟩

/-- **Limits only cut off.** Of two limits, let the first be the tighter one. A text that it accepts is
accepted by the other, and the iterator and the signature made of it are the same; a fault that is
neither one of depth nor one of length is reported by the other as it is; and what the other reports
is reported by the tighter one too, unless that is broken itself. -/
theorem limits_only_cut_off (l m : Limits) (bytes : Bytes) (h : l ≤ m) :
    (check l bytes = .ok () → check m bytes = .ok () ∧
      ∃ it s, Excerpts.ofBytes l bytes = .ok it ∧ Excerpts.ofBytes m bytes = .ok it ∧
        Signature.within l bytes = .ok s ∧ Signature.within m bytes = .ok s) ∧
    (∀ r, check l bytes = .error r → ¬ r.TooDeep → ¬ r.TooLong → check m bytes = .error r) ∧
    (∀ r, check m bytes = .error r →
      ∃ r', check l bytes = .error r' ∧ (r' = r ∨ r'.TooDeep ∨ r'.TooLong)) := by
  rcases check_tighten h bytes with heq | ⟨r, hr, hbroken⟩
  · refine ⟨?_, fun r hr _ _ => heq.trans hr, fun r hr => ⟨r, heq ▸ hr, Or.inl rfl⟩⟩
    intro hl
    have hm := heq.trans hl
    exact ⟨hm, _, _, Excerpts.ofBytes_ok_iff.mpr ⟨hl, rfl⟩, Excerpts.ofBytes_ok_iff.mpr ⟨hm, rfl⟩,
      Signature.within_ok_iff.mpr ⟨hl, rfl⟩, Signature.within_ok_iff.mpr ⟨hm, rfl⟩⟩
  · rw [hr]
    refine ⟨fun hok => by simp at hok, ?_, fun _ _ => ⟨r, rfl, Or.inr hbroken⟩⟩
    intro r' hr' hdeep hlong
    obtain rfl := Except.error.inj hr'
    exact absurd hbroken (not_or.mpr ⟨hdeep, hlong⟩)

/-- The second bracket of `a(a{sv}}` closes what is not open, under the limits of the protocol as well
as under limits that the text just keeps. -/
theorem limits_only_cut_off_second_bracket :
    (⟨⟨3, 1⟩, some 8⟩ : Limits) ≤ .standard ∧
      check ⟨⟨3, 1⟩, some 8⟩ [0x61, 0x28, 0x61, 0x7b, 0x73, 0x76, 0x7d, 0x7d] =
        .error (.fault ⟨7, .unbalanced 0x7d⟩) ∧
      check .standard [0x61, 0x28, 0x61, 0x7b, 0x73, 0x76, 0x7d, 0x7d] =
        .error (.fault ⟨7, .unbalanced 0x7d⟩) := by
  have hle : (⟨⟨3, 1⟩, some 8⟩ : Limits) ≤ .standard := by
    refine ⟨⟨by decide, by decide⟩, ?_⟩
    intro n hn
    obtain rfl : 255 = n := Option.some.inj hn
    exact ⟨8, rfl, by decide⟩
  have hl : check ⟨⟨3, 1⟩, some 8⟩ [0x61, 0x28, 0x61, 0x7b, 0x73, 0x76, 0x7d, 0x7d] =
      .error (.fault ⟨7, .unbalanced 0x7d⟩) := by
    rw [check, checkFrom_eq_feedAll]
    rfl
  obtain ⟨-, hsame, -⟩ := limits_only_cut_off _ _ _ hle
  exact ⟨hle, hl, hsame _ hl (by simp [Rejection.TooDeep, Fault.TooDeep])
    (by simp [Rejection.TooLong])⟩

end DBusTypes
