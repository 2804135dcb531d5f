import DBusTypes.Proofs.Builders
import DBusTypes.Proofs.FirstFault

/-!
# One text behind another

A signature leaves nothing open. What stands behind it is therefore read as it would be alone, and all
that is said of it is moved by the length of the signature: where a fault is, and where each type is.

1. Reading does not look at where a text stands. A state is moved by moving the places at which its
   containers were opened, and then a byte does the same as before, but moved (`Nest.feed_shift`), and
   so do all bytes of a text (`Nest.feedAll_shift`).
2. After a signature the state is the one to start with (`feedAll_eq_start`), so the text behind it is
   taken from the start, but moved (`check_append`).
3. The types of both texts are the types of the whole, and only where they stand has to be told again
   (`Excerpts.cut_append`, `Excerpts.cut_shift`).

The main statement is `concatenation`.
-/

namespace DBusTypes

/-! ## Moving a state -/

/-- The same container, in a text that has `n` more bytes in front. -/
def Opened.shift (n : Nat) (o : Opened) : Opened := { o with start := n + o.start }

namespace Nest

/-- The same containers, in a text that has `n` more bytes in front. -/
def shift (n : Nat) (s : Nest) : Nest := { s with opened := s.opened.map (Opened.shift n) }

/-- What is reached, or the fault, in a text that has `n` more bytes in front. -/
def shiftResult (n : Nat) : Except Fault Nest → Except Fault Nest
  | .ok s => .ok (s.shift n)
  | .error f => .error (f.shift n)

variable {limit : Depth} {scope : Scope}

theorem allowsEntry_shift (n : Nat) (s : Nest) :
    (s.shift n).allowsEntry scope = s.allowsEntry scope := by
  obtain ⟨opened, depth⟩ := s
  cases opened <;> rfl

theorem fits_shift (n offset : Nat) (basic : Bool) (s : Nest) :
    (s.shift n).fits (n + offset) basic = (s.fits offset basic).mapError (Fault.shift n) := by
  obtain ⟨opened, depth⟩ := s
  cases opened with
  | nil => rfl
  | cons o outer =>
    obtain ⟨container, start, held⟩ := o
    cases container with
    | array | struct => rfl
    | dictEntry =>
      simp only [fits, shift, List.map_cons, Opened.shift]
      by_cases hkey : held = 0 ∧ basic = false
      · rw [if_pos hkey, if_pos hkey]
        rfl
      · rw [if_neg hkey, if_neg hkey]
        by_cases hfull : 2 ≤ held
        · rw [if_pos hfull, if_pos hfull]
          rfl
        · rw [if_neg hfull, if_neg hfull]
          rfl

theorem enter_shift (container : Container) (n offset : Nat) (s : Nest) :
    (s.shift n).enter limit container (n + offset) =
      shiftResult n (s.enter limit container offset) := by
  unfold enter
  by_cases hdeep : limit.containers ≤ s.depth.containers
  · rw [if_pos hdeep, if_pos (show limit.containers ≤ (s.shift n).depth.containers from hdeep)]
    rfl
  · rw [if_neg hdeep, if_neg (show ¬ limit.containers ≤ (s.shift n).depth.containers from hdeep)]
    rfl

theorem enterEntry_shift (n offset : Nat) (s : Nest) :
    (s.shift n).enterEntry limit (n + offset) = shiftResult n (s.enterEntry limit offset) := by
  unfold enterEntry
  by_cases hdeep : limit.entries ≤ s.depth.entries
  · rw [if_pos hdeep, if_pos (show limit.entries ≤ (s.shift n).depth.entries from hdeep)]
    rfl
  · rw [if_neg hdeep, if_neg (show ¬ limit.entries ≤ (s.shift n).depth.entries from hdeep)]
    rfl

/-- Counting a whole type does not move what is open. -/
theorem settle_shift (n : Nat) (opened : List Opened) (depth : Depth) :
    settle (opened.map (Opened.shift n)) depth = (settle opened depth).shift n := by
  induction opened generalizing depth with
  | nil => rfl
  | cons o outer ih =>
    obtain ⟨container, start, held⟩ := o
    cases container with
    | array => exact ih _
    | struct | dictEntry => rfl

theorem closeStruct_shift (bracket : UInt8) (n offset : Nat) (s : Nest) :
    (s.shift n).closeStruct bracket (n + offset) = shiftResult n (s.closeStruct bracket offset) := by
  obtain ⟨opened, depth⟩ := s
  cases opened with
  | nil => rfl
  | cons o outer =>
    obtain ⟨container, start, held⟩ := o
    cases container with
    | array | dictEntry => rfl
    | struct =>
      simp only [closeStruct, shift, List.map_cons, Opened.shift]
      by_cases hempty : held = 0
      · rw [if_pos hempty, if_pos hempty]
        rfl
      · rw [if_neg hempty, if_neg hempty]
        exact congrArg Except.ok (settle_shift n outer _)

theorem closeEntry_shift (bracket : UInt8) (n offset : Nat) (s : Nest) :
    (s.shift n).closeEntry bracket (n + offset) = shiftResult n (s.closeEntry bracket offset) := by
  obtain ⟨opened, depth⟩ := s
  cases opened with
  | nil => rfl
  | cons o outer =>
    obtain ⟨container, start, held⟩ := o
    cases container with
    | array | struct => rfl
    | dictEntry =>
      simp only [closeEntry, shift, List.map_cons, Opened.shift]
      by_cases hempty : held = 0
      · rw [if_pos hempty, if_pos hempty]
        rfl
      · rw [if_neg hempty, if_neg hempty]
        by_cases hpair : held ≠ 2
        · rw [if_pos hpair, if_pos hpair]
          rfl
        · rw [if_neg hpair, if_neg hpair]
          exact congrArg Except.ok (settle_shift n outer _)

/-- A step behind the look at the place is moved if both are. -/
theorem shiftResult_seq (n : Nat) (x : Except Fault Unit) (y : Except Fault Nest) :
    (x.mapError (Fault.shift n) >>= fun _ => shiftResult n y) = shiftResult n (x >>= fun _ => y) := by
  cases x <;> rfl

/-- **A byte is taken alike wherever its text stands.** -/
theorem feed_shift (n offset : Nat) (b : UInt8) (s : Nest) :
    (s.shift n).feed limit scope (n + offset) b = shiftResult n (s.feed limit scope offset b) := by
  unfold feed
  cases Code.ofByte? b with
  | some c =>
    cases c with
    | array | struct =>
      simp only [fits_shift, enter_shift]
      exact shiftResult_seq n _ _
    | dictEntry =>
      simp only [allowsEntry_shift, enterEntry_shift]
      by_cases hallows : s.allowsEntry scope = true
      · rw [if_pos hallows, if_pos hallows]
      · rw [if_neg hallows, if_neg hallows]
        rfl
    | basic k | variant =>
      simp only [fits_shift]
      have hsettle : (pure (settle (s.shift n).opened (s.shift n).depth) : Except Fault Nest) =
          shiftResult n (pure (settle s.opened s.depth)) :=
        congrArg Except.ok (settle_shift n s.opened s.depth)
      rw [hsettle]
      exact shiftResult_seq n _ _
  | none =>
    simp only [closeStruct_shift, closeEntry_shift]
    by_cases hstruct : b = structEnd
    · rw [if_pos hstruct, if_pos hstruct]
    · rw [if_neg hstruct, if_neg hstruct]
      by_cases hentry : b = entryEnd
      · rw [if_pos hentry, if_pos hentry]
      · rw [if_neg hentry, if_neg hentry]
        rfl

/-- **All bytes of a text are taken alike wherever it stands.** -/
theorem feedAll_shift (n offset : Nat) (bytes : Bytes) (s : Nest) :
    feedAll limit scope (s.shift n) (n + offset) bytes =
      shiftResult n (feedAll limit scope s offset bytes) := by
  induction bytes generalizing s offset with
  | nil => rfl
  | cons b bytes ih =>
    rw [feedAll, feedAll, feed_shift]
    cases s.feed limit scope offset b with
    | error f => rfl
    | ok s' => exact ih (offset + 1) s'

/-- What is open at the end of a text is reported alike wherever it stands. -/
theorem finish_shift (n : Nat) (s : Nest) :
    (s.shift n).finish = s.finish.mapError (Fault.shift n) := by
  obtain ⟨opened, depth⟩ := s
  cases opened with
  | nil => rfl
  | cons o outer =>
    obtain ⟨container, start, held⟩ := o
    cases container <;> rfl

end Nest

/-! ## Checking behind a signature -/

section

variable {depth : Depth} {s t : Bytes}

/-- After a signature nothing is open. -/
theorem feedAll_eq_start (h : check ⟨depth, none⟩ s = .ok ()) :
    Nest.feedAll depth .sequence .start 0 s = .ok .start := by
  rw [check_unlimited, mapError_eq_ok] at h
  obtain ⟨s', hs', hfinish⟩ := bind_eq_ok.mp h
  obtain ⟨p, -, rfl⟩ := Progress.exists_of_feedAll hs'
  rw [hs']
  cases hp : p.stems with
  | nil => rw [Progress.nest, hp, Stem.nest_nil]
  | cons g outer =>
    rw [Progress.nest, hp] at hfinish
    simp [Nest.finish, Stem.nest, Stem.frames] at hfinish

/-- The bytes behind a signature are taken as they would be alone, but moved. -/
theorem feedAll_append_eq (h : check ⟨depth, none⟩ s = .ok ()) (t : Bytes) :
    Nest.feedAll depth .sequence .start 0 (s ++ t) =
      Nest.shiftResult s.length (Nest.feedAll depth .sequence .start 0 t) := by
  rw [Nest.feedAll_append, feedAll_eq_start h, ← Nest.feedAll_shift]
  simp only [Nat.zero_add, Nat.add_zero]
  rfl

/-- **What stands behind a signature is checked as it would be alone**, but for the places of its
faults. -/
theorem check_append (h : check ⟨depth, none⟩ s = .ok ()) (t : Bytes) :
    (check ⟨depth, none⟩ t = .ok () ∧ check ⟨depth, none⟩ (s ++ t) = .ok ()) ∨
      ∃ f : Fault, check ⟨depth, none⟩ t = .error (.fault f) ∧
        check ⟨depth, none⟩ (s ++ t) = .error (.fault (f.shift s.length)) := by
  rw [check_unlimited, check_unlimited, feedAll_append_eq h]
  cases Nest.feedAll depth .sequence .start 0 t with
  | error f => exact Or.inr ⟨f, rfl, rfl⟩
  | ok s' =>
    simp only [Nest.shiftResult, Except.bind, Nest.finish_shift]
    cases s'.finish with
    | error f => exact Or.inr ⟨f, rfl, rfl⟩
    | ok u => exact Or.inl ⟨rfl, rfl⟩

end

/-! ## The types of two texts -/

namespace Excerpt

/-- The same type, cut out of a text that goes on with `t`: the type is the last one only if there is
nothing in `t`. -/
def before (t : Bytes) (x : Excerpt) : Excerpt := { x with last := x.last && t.isEmpty }

/-- The same type, cut out of a text that has `n` more bytes in front. -/
def shift (n : Nat) (x : Excerpt) : Excerpt := { x with offset := n + x.offset }

end Excerpt

namespace Excerpts

theorem cut_shift (n offset : Nat) (es : List Element) :
    cut (n + offset) es = (cut offset es).map (Excerpt.shift n) := by
  induction es generalizing offset with
  | nil => rfl
  | cons e es ih =>
    rw [cut, cut, List.map_cons, Nat.add_assoc, ih]
    rfl

theorem cut_append (offset : Nat) (es fs : List Element) :
    cut offset (es ++ fs) = (cut offset es).map (Excerpt.before (Element.renderAll fs)) ++
      cut (offset + (Element.renderAll es).length) fs := by
  have hempty : (Element.renderAll fs).isEmpty = fs.isEmpty := by
    cases fs with
    | nil => rfl
    | cons f fs =>
      have hne : Element.renderAll (f :: fs) ≠ [] := fun hnil =>
        List.cons_ne_nil f fs (Element.renderAll_eq_nil hnil)
      simpa using hne
  induction es generalizing offset with
  | nil => rfl
  | cons e es ih =>
    have hlast : (es ++ fs).isEmpty = (es.isEmpty && fs.isEmpty) := by cases es <;> rfl
    rw [List.cons_append, cut, cut, List.map_cons, List.cons_append, ih, Element.renderAll_cons,
      List.length_append, Nat.add_assoc, Excerpt.before, hempty, hlast]

end Excerpts

namespace Signature

/-- Whether the types of `c` are those of `a` and then those of `b`, each at its place. -/
structure Joins (a b c : Signature) : Prop where
  text : c.text = a.text ++ b.text
  excerpts : c.excerpts.toList =
    a.excerpts.toList.map (Excerpt.before b.text) ++ b.excerpts.toList.map (Excerpt.shift a.length)
  portions : c.portions.toList.map Portion.excerpt =
    (a.portions.toList.map Portion.excerpt).map (Excerpt.before b.text) ++
      (b.portions.toList.map Portion.excerpt).map (Excerpt.shift a.length)
  count : c.count = a.count + b.count

/-- The types of a text that was put together are the types of its parts. -/
theorem joins_of_text {a b c : Signature} (ha : a.Sound) (hb : b.Sound)
    (h : c.text = a.text ++ b.text) : a.Joins b c := by
  obtain ⟨-, ts, hts, hfit⟩ := id ha
  obtain ⟨-, us, hus, hfit'⟩ := id hb
  have hall : Ty.Fit .top (ts ++ us) := Ty.fit_append.mpr ⟨hfit, hfit'⟩
  have htext : c.text = Ty.renderAll (ts ++ us) := by rw [h, hts, hus, Ty.renderAll_append]
  have hexcerpts : c.excerpts.toList = a.excerpts.toList.map (Excerpt.before b.text) ++
      b.excerpts.toList.map (Excerpt.shift a.length) := by
    rw [toList_excerpts htext hall, toList_excerpts hts hfit, toList_excerpts hus hfit',
      List.map_append, Excerpts.cut_append, Element.renderAll_map_type, Element.renderAll_map_type,
      ← hts, ← hus, ← Excerpts.cut_shift, Nat.zero_add]
    rfl
  refine ⟨h, hexcerpts, ?_, ?_⟩
  · rw [map_excerpt_portions ha, map_excerpt_portions hb,
      map_excerpt_portions (sound_of_fit htext hall), hexcerpts]
  · rw [count, count, count, htext, hts, hus, countTypes_renderAll hall, countTypes_renderAll hfit,
      countTypes_renderAll hfit', List.length_append]

end Signature

/-- **Checking and going through a text agree with concatenation.** Behind a signature, a text whose
length is not limited is accepted if it is accepted alone, and otherwise refused for the same cause, at
an offset that is greater by the length of the signature. The types of the whole are those of the
signature, of which none is the last any more if something follows, and those of the text behind it,
whose offsets are greater by that length; and so their numbers add up. -/
theorem concatenation (depth : Depth) (s : Bytes) (h : check ⟨depth, none⟩ s = .ok ()) :
    (∀ t, check ⟨depth, none⟩ (s ++ t) = .ok () ↔ check ⟨depth, none⟩ t = .ok ()) ∧
    (∀ t r, check ⟨depth, none⟩ t = .error r → ∃ f : Fault, r = .fault f ∧
      check ⟨depth, none⟩ (s ++ t) = .error (.fault (f.shift s.length))) ∧
    ∀ t, check ⟨depth, none⟩ t = .ok () → ∃ a b c : Signature,
      (Signature.within ⟨depth, none⟩ s = .ok a ∧
        Excerpts.ofBytes ⟨depth, none⟩ s = .ok a.excerpts) ∧
      (Signature.within ⟨depth, none⟩ t = .ok b ∧
        Excerpts.ofBytes ⟨depth, none⟩ t = .ok b.excerpts) ∧
      (Signature.within ⟨depth, none⟩ (s ++ t) = .ok c ∧
        Excerpts.ofBytes ⟨depth, none⟩ (s ++ t) = .ok c.excerpts) ∧
      a.Joins b c := by
  refine ⟨?_, ?_, ?_⟩
  · intro t
    rcases check_append h t with ⟨ht, hst⟩ | ⟨f, ht, hst⟩
    · rw [ht, hst]
    · rw [ht, hst]
      exact ⟨fun hok => by simp at hok, fun hok => by simp at hok⟩
  · intro t r hr
    rcases check_append h t with ⟨ht, -⟩ | ⟨f, ht, hst⟩
    · rw [ht] at hr
      simp at hr
    · rw [ht] at hr
      exact ⟨f, (Except.error.inj hr).symm, hst⟩
  · intro t ht
    have hmade : ∀ {text : Bytes}, check ⟨depth, none⟩ text = .ok () →
        Signature.within ⟨depth, none⟩ text = .ok (.ofChecked text) ∧
          Excerpts.ofBytes ⟨depth, none⟩ text = .ok (Signature.ofChecked text).excerpts :=
      fun hc => ⟨Signature.within_ok_iff.mpr ⟨hc, rfl⟩, Excerpts.ofBytes_ok_iff.mpr ⟨hc, rfl⟩⟩
    rcases check_append h t with ⟨-, hst⟩ | ⟨f, hf, -⟩
    · exact ⟨_, _, _, hmade h, hmade ht, hmade hst,
        Signature.joins_of_text (Signature.sound_of_within (hmade h).1)
          (Signature.sound_of_within (hmade ht).1) rfl⟩
    · rw [ht] at hf
      simp at hf

/-- Behind `a{sv}`, the open struct of `i(` is reported at 6 and not at 1, and `iv` makes three types
of one. -/
theorem concatenation_dict :
    check ⟨⟨32, 32⟩, none⟩ [0x61, 0x7b, 0x73, 0x76, 0x7d] = .ok () ∧
      check ⟨⟨32, 32⟩, none⟩ [0x69, 0x28] = .error (.fault ⟨1, .unterminated⟩) ∧
      check ⟨⟨32, 32⟩, none⟩ [0x61, 0x7b, 0x73, 0x76, 0x7d, 0x69, 0x28] =
        .error (.fault ⟨6, .unterminated⟩) ∧
      check ⟨⟨32, 32⟩, none⟩ [0x69, 0x76] = .ok () ∧
      ∃ a b c, Signature.within ⟨⟨32, 32⟩, none⟩ [0x61, 0x7b, 0x73, 0x76, 0x7d] = .ok a ∧
        Signature.within ⟨⟨32, 32⟩, none⟩ [0x69, 0x76] = .ok b ∧
        Signature.within ⟨⟨32, 32⟩, none⟩ [0x61, 0x7b, 0x73, 0x76, 0x7d, 0x69, 0x76] = .ok c ∧
        a.Joins b c := by
  have hs : check ⟨⟨32, 32⟩, none⟩ [0x61, 0x7b, 0x73, 0x76, 0x7d] = .ok () := by
    rw [check_unlimited]
    rfl
  have hopen : check ⟨⟨32, 32⟩, none⟩ [0x69, 0x28] = .error (.fault ⟨1, .unterminated⟩) := by
    rw [check_unlimited]
    rfl
  have hpair : check ⟨⟨32, 32⟩, none⟩ [0x69, 0x76] = .ok () := by
    rw [check_unlimited]
    rfl
  obtain ⟨-, hfault, htypes⟩ := concatenation ⟨32, 32⟩ _ hs
  obtain ⟨f, hf, hmoved⟩ := hfault _ _ hopen
  obtain rfl := Rejection.fault.inj hf
  obtain ⟨a, b, c, ⟨ha, -⟩, ⟨hb, -⟩, ⟨hc, -⟩, hjoins⟩ := htypes _ hpair
  exact ⟨hs, hopen, hmoved, hpair, a, b, c, ha, hb, hc, hjoins⟩

end DBusTypes
