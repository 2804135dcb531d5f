import DBusTypes.Proofs.Operands
import DBusTypes.Proofs.Redirect
import DBusTypes.Proofs.Trimming

/-!
# Texts that are read and texts among the arguments

Texts may be written one to a line in many ways: with white space around them, with blank lines between
them, with either kind of line end, and with none behind the last line. Read back, they are the texts
again, and a run makes the same of them as if they stood among its arguments.

* `Listing` — the ways to write texts one to a line
* `Listing.readTexts_eq` — **texts are read back from any way to write them**
* `Command.inWorld_deliver_withInput` — a report is delivered alike whatever is on standard input
* `Command.SameRun`, `listing_as_arguments` — **a list that is read and a list of arguments come to the
  same**
-/

namespace DBusTypes

/-! ## Ways to write a list -/

/-- Whether a text is white space that does not end a line. -/
def Margin (w : String) : Prop := AllBlank w ∧ '\n' ∉ w.toList

/-- The two ways to end a line. -/
def LineEnd (e : Bytes) : Prop := e = [0x0a] ∨ e = [0x0d, 0x0a]

/-- The ways to write texts one to a line. -/
inductive Listing : List String → Bytes → Prop
  /-- Behind the last line end there may be white space. -/
  | rest {w : String} (hw : Margin w) : Listing [] (utf8 w)
  /-- The line of the last text need not be ended. -/
  | last {w t w' : String} (hw : Margin w) (hw' : Margin w') : Listing [t] (utf8 (w ++ t ++ w'))
  | blank {w : String} {e b : Bytes} {texts : List String} (hw : Margin w) (he : LineEnd e)
      (h : Listing texts b) : Listing texts (utf8 w ++ (e ++ b))
  | text {w t w' : String} {e b : Bytes} {texts : List String} (hw : Margin w) (hw' : Margin w')
      (he : LineEnd e) (h : Listing texts b) : Listing (t :: texts) (utf8 (w ++ t ++ w') ++ (e ++ b))

/-- Whether a text can be written on a line, and be told from the white space around it. -/
structure Item (t : String) : Prop where
  ne : t ≠ ""
  plain : '\n' ∉ t.toList
  bare : Bare t

variable {texts : List String} {b : Bytes} {w w' t : String}

theorem Margin.append (h : Margin w) (h' : Margin w') : Margin (w ++ w') := by
  refine ⟨h.1.append h'.1, ?_⟩
  rw [String.toList_append, List.mem_append, not_or]
  exact ⟨h.2, h'.2⟩

/-- A carriage return in front of a line feed is white space on its line. -/
theorem LineEnd.exists_margin {e : Bytes} (h : LineEnd e) : ∃ w, Margin w ∧ e = utf8 w ++ [0x0a] := by
  rcases h with rfl | rfl
  · exact ⟨"", ⟨by decide, by decide⟩, rfl⟩
  · exact ⟨"\r", ⟨by decide, by decide⟩, rfl⟩

theorem Margin.plain (h : Margin w) : 0x0a ∉ utf8 w := fun hmem => h.2 (newline_mem_utf8_iff.mp hmem)

/-- A text with white space around it takes one line. -/
theorem Item.plain_line (ht : Item t) (hw : Margin w) (hw' : Margin w') :
    0x0a ∉ utf8 (w ++ t ++ w') := by
  rw [newline_mem_utf8_iff, String.toList_append, String.toList_append, List.mem_append,
    List.mem_append, not_or, not_or]
  exact ⟨⟨hw.2, ht.plain⟩, hw'.2⟩

/-- A line is put in front of others, with what is behind it up to the line feed. -/
theorem lines_cons_utf8 {s r : String} {lines : List Bytes} (hplain : 0x0a ∉ utf8 (s ++ r))
    (h : Lines b lines) : Lines (utf8 s ++ (utf8 r ++ [0x0a] ++ b)) (utf8 (s ++ r) :: lines) := by
  have hcons := Lines.cons hplain h
  rw [utf8_append, List.append_assoc] at hcons
  rw [utf8_append, List.append_assoc]
  exact hcons

theorem textsOf_blank {s : String} (h : trim s = "") (lines : List String) :
    textsOf (s :: lines) = textsOf lines := by
  rw [textsOf_cons, h]
  rfl

theorem textsOf_text {s : String} (h : trim s = t) (hne : t ≠ "") (lines : List String) :
    textsOf (s :: lines) = t :: textsOf lines := by
  rw [textsOf_cons, h, if_neg (by simpa using hne)]

/-- However texts are written one to a line, they are the texts of the lines. -/
theorem Listing.exists_lines (h : Listing texts b) (hitems : ∀ t ∈ texts, Item t) :
    ∃ lines : List String, Lines b (lines.map utf8) ∧ textsOf lines = texts := by
  induction h with
  | @rest w hw =>
    by_cases hnil : utf8 w = []
    · rw [hnil]
      exact ⟨[], .nil, rfl⟩
    · exact ⟨[w], .last hnil hw.plain, textsOf_blank (trim_of_allBlank hw.1) []⟩
  | @last w t w' hw hw' =>
    have ht := hitems t List.mem_cons_self
    have hne : utf8 (w ++ t ++ w') ≠ [] := by
      intro hnil
      rw [utf8_append, utf8_append] at hnil
      have hempty : utf8 t = utf8 "" := (List.append_eq_nil_iff.mp (List.append_eq_nil_iff.mp hnil).1).2
      exact ht.ne (utf8_inj.mp hempty)
    exact ⟨[w ++ t ++ w'], .last hne (ht.plain_line hw hw'),
      textsOf_text (trim_append hw.1 ht.bare hw'.1) ht.ne []⟩
  | @blank w e b texts hw he _ ih =>
    obtain ⟨r, hr, rfl⟩ := he.exists_margin
    obtain ⟨lines, hlines, rfl⟩ := ih hitems
    have hline := hw.append hr
    exact ⟨(w ++ r) :: lines, lines_cons_utf8 hline.plain hlines,
      textsOf_blank (trim_of_allBlank hline.1) lines⟩
  | @text w t w' e b texts hw hw' he _ ih =>
    have ht := hitems t List.mem_cons_self
    obtain ⟨r, hr, rfl⟩ := he.exists_margin
    obtain ⟨lines, hlines, rfl⟩ := ih fun t' ht' => hitems t' (List.mem_cons_of_mem t ht')
    -- What ends the line up to its line feed belongs to the white space behind the text.
    have hend := hw'.append hr
    have hplain := ht.plain_line hw hend
    have htrim := trim_append hw.1 ht.bare hend.1
    rw [← String.append_assoc] at hplain htrim
    exact ⟨(w ++ t ++ w' ++ r) :: lines, lines_cons_utf8 hplain hlines,
      textsOf_text htrim ht.ne lines⟩

/-- **Texts are read back from any way to write them.** -/
theorem Listing.readTexts_eq (h : Listing texts b) (hitems : ∀ t ∈ texts, Item t) :
    readTexts b = .ok texts := by
  obtain ⟨lines, hlines, rfl⟩ := h.exists_lines hitems
  exact readTexts_ok_iff.mpr ⟨lines, hlines, rfl⟩

/-! ## Standard input -/

/-- A world with something else on standard input. -/
def World.withInput (b : Bytes) (w : World) : World := { w with input := b }

theorem World.disk_withInput (b : Bytes) (w : World) : (w.withInput b).disk = w.disk := rfl

namespace Host

variable {α β : Type}

/-- Whether a program neither looks at standard input nor changes it. -/
def Blind (x : StateM World α) : Prop :=
  ∀ w b, x.run (w.withInput b) = Prod.map id (World.withInput b) (x.run w)

theorem Blind.bind {x : StateM World α} {f : α → StateM World β} (hx : Blind x)
    (hf : ∀ a, Blind (f a)) : Blind (x >>= f) := by
  intro w b
  rw [StateT.run_bind, StateT.run_bind, hx w b]
  exact hf _ _ b

theorem blind_makeChain (ps : List Path) : Blind (makeChain (m := StateM World) ps) := by
  induction ps with
  | nil => exact fun w b => rfl
  | cons p above ih =>
    have hmake : Blind (makeDirectory (m := StateM World) p) := fun w b => rfl
    have hdir : Blind (isDirectory (m := StateM World) p) := fun w b => rfl
    have hreturn : ∀ made : Bool, Blind (pure made : StateM World Bool) := fun made w b => rfl
    rw [makeChain]
    split
    · exact hreturn true
    · refine hmake.bind fun making => ?_
      cases making with
      | made => exact hreturn true
      | refused => exact hdir
      | parentMissing =>
        refine ih.bind fun ready => ?_
        cases ready with
        | false => exact hreturn false
        | true =>
          refine hmake.bind fun making => ?_
          cases making with
          | made => exact hreturn true
          | refused => exact hdir
          | parentMissing => exact hdir

end Host

namespace Command

variable {reply : Reply} {args args' flags more texts : List String} {o : Options} {w : World}
  {path : Path}

theorem inWorld_makeParents_withInput (path : Path) (w : World) (b : Bytes) :
    inWorld reply (makeParents path) (w.withInput b) =
      Prod.map id (World.withInput b) (inWorld reply (makeParents path) w) := by
  rw [inWorld_makeParents, inWorld_makeParents, World.disk_withInput]
  cases path.parent? with
  | none => rfl
  | some parent =>
    have hmake : (Host.makeDirectories (m := StateM World) parent).run (w.withInput b) = _ :=
      Host.blind_makeChain parent.ancestors w b
    dsimp only
    split
    · rfl
    · rw [hmake]
      rfl

theorem inWorld_clear_withInput (path : Path) (overwrite : Bool) (w : World) (b : Bytes) :
    inWorld reply (clear path overwrite) (w.withInput b) =
      Prod.map id (World.withInput b) (inWorld reply (clear path overwrite) w) := by
  rw [inWorld_clear, inWorld_clear, World.disk_withInput]
  split
  · rfl
  · split
    · split
      · rfl
      · split
        · exact inWorld_makeParents_withInput path { w with disk := (w.disk.removeFile path).1 } b
        · rfl
    · exact inWorld_makeParents_withInput path w b

/-- **A report is delivered alike whatever is left on standard input.** -/
theorem inWorld_deliver_withInput (reply : Reply) (o : Options) (report : Bytes) (w : World)
    (b : Bytes) :
    inWorld reply (deliver o report) (w.withInput b) =
      Prod.map id (World.withInput b) (inWorld reply (deliver o report) w) := by
  cases htarget : o.target with
  | none =>
    rw [inWorld_deliver_none htarget, inWorld_deliver_none htarget]
    rfl
  | some path =>
    rw [inWorld_deliver_some htarget, inWorld_deliver_some htarget, inWorld_clear_withInput]
    rcases inWorld reply (clear path o.overwrite) w with ⟨f | u, w'⟩
    · rfl
    · rfl

/-! ## Runs -/

/-- The same options, with texts among the signatures in place of an input. -/
def given (o : Options) (texts : List String) : Options :=
  { o with input := none, signatures := o.signatures ++ texts }

/-- Whether two runs come to the same, but for what is left on standard input. -/
structure SameRun (r r' : Outcome × World) : Prop where
  outcome : r.1 = r'.1
  exit : r.1.exitCode = r'.1.exitCode
  output : r.2.output = r'.2.output
  disk : r.2.disk = r'.2.disk

/-- What is done with texts does not depend on where they come from. -/
theorem inWorld_deliver_given (o : Options) (texts more : List String) (w : World) :
    inWorld reply (deliver (given o texts) (Report.records (given o texts) more)) w =
      inWorld reply (deliver o (Report.records o more)) w := rfl

/-- A run that reads its texts comes to the same as one that has them among its arguments. -/
theorem sameRun_given (hparse : Arguments.parse args = .ok o) (hinput : o.input = some path)
    (hread : interpret path (source w path) = .ok texts) (hne : texts ≠ [])
    (hparse' : Arguments.parse args' = .ok (given o texts)) :
    SameRun (runIn reply args w) (runIn reply args' w) := by
  have hgather : gather o w = .ok (o.signatures ++ texts) := by
    unfold gather more
    rw [hinput]
    dsimp only
    rw [hread]
    simp [hne]
  have hgather' : gather (given o texts) w = .ok (o.signatures ++ texts) := by
    unfold gather more
    simp [given, hne]
  have hafter : afterGathering o w = w.withInput (afterGathering o w).input := afterGathering_eq o w
  have hafter' : afterGathering (given o texts) w = w := rfl
  have hdeliver := inWorld_deliver_withInput reply o (Report.records o (o.signatures ++ texts)) w
    (afterGathering o w).input
  rw [← hafter] at hdeliver
  have hrun : runIn reply args w =
      Prod.map id (World.withInput (afterGathering o w).input) (runIn reply args' w) := by
    rw [runIn_eq, runIn_eq, hparse, hparse']
    dsimp only
    rw [inWorld_execute, inWorld_execute, hgather, hgather', hafter']
    dsimp only
    rw [hdeliver, inWorld_deliver_given]
    rcases inWorld reply (deliver o (Report.records o (o.signatures ++ texts))) w with ⟨f | u, w'⟩
    · rfl
    · rfl
  rw [hrun]
  exact ⟨rfl, rfl, rfl, rfl⟩

end Command

open Command

/-- **A list that is read and a list of arguments come to the same**, however the list is written, from
wherever it is read, and whatever else the arguments ask for or get wrong. -/
theorem listing_as_arguments (reply : Reply) (texts : List String) (b : Bytes) (path : String)
    (w : World) (hne : texts ≠ []) (hitems : ∀ t ∈ texts, Item t) (hlisting : Listing texts b)
    (hsource : source w path.toList = .content b) :
    (∀ args args' o, Arguments.parse args = .ok o → o.input = some path.toList →
      Arguments.parse args' = .ok (given o texts) →
        SameRun (runIn reply args w) (runIn reply args' w)) ∧
    ∀ flags more, "--" ∉ flags → Arguments.NamesInput path more →
      (∀ o, Arguments.parse flags = .ok o → o.input = none) →
      SameRun (runIn reply (flags ++ more) w) (runIn reply (flags ++ "--" :: texts) w) := by
  have hread : interpret path.toList (source w path.toList) = .ok texts := by
    rw [hsource]
    exact mapError_eq_ok.mpr (hlisting.readTexts_eq hitems)
  have hsame : ∀ args args' o, Arguments.parse args = .ok o → o.input = some path.toList →
      Arguments.parse args' = .ok (given o texts) →
        SameRun (runIn reply args w) (runIn reply args' w) :=
    fun args args' o hparse hinput hparse' => sameRun_given hparse hinput hread hne hparse'
  refine ⟨hsame, ?_⟩
  intro flags more hplain hnames hnone
  have hmore := Arguments.parse_input hplain hnames
  have htexts := Arguments.parse_operands hplain texts
  cases hflags : Arguments.parse flags with
  | error e =>
    rw [hflags] at hmore htexts
    rw [runIn_of_usage hmore, runIn_of_usage htexts]
    exact ⟨rfl, rfl, rfl, rfl⟩
  | ok o =>
    rw [hflags] at hmore htexts
    have hinput := hnone o hflags
    refine hsame _ _ { o with input := some path.toList } ?_ rfl ?_
    · rw [hmore]
      show (if o.input.isSome then _ else _) = _
      rw [hinput]
      rfl
    · rw [htexts]
      show Except.ok { o with signatures := o.signatures ++ texts } =
        .ok { o with input := none, signatures := o.signatures ++ texts }
      rw [← hinput]

/-- Two texts on four lines: one has white space around it, one is blank, and the last is not ended. -/
theorem listing_as_arguments_mixed :
    let texts := ["s", "(i)"]
    let b := utf8 (" " ++ "s" ++ "\t") ++ ([0x0d, 0x0a] ++ (utf8 "" ++ ([0x0a] ++
      utf8 ("" ++ "(i)" ++ " "))))
    let w : World := ⟨⟨[], []⟩, b, []⟩
    let flags := ["-o", "jsonl", "--tree"]
    texts ≠ [] ∧ (∀ t ∈ texts, Item t) ∧ Listing texts b ∧
      source w "-".toList = .content b ∧ "--" ∉ flags ∧
      Arguments.NamesInput "-" ["--input", "-"] ∧
      (∀ o, Arguments.parse flags = .ok o → o.input = none) ∧
      SameRun (runIn .unasked (flags ++ ["--input", "-"]) w)
        (runIn .unasked (flags ++ "--" :: texts) w) := by
  intro texts b w flags
  have hspace : Margin " " := ⟨by decide, by decide⟩
  have htab : Margin "\t" := ⟨by decide, by decide⟩
  have hempty : Margin "" := ⟨by decide, by decide⟩
  have hitems : ∀ t ∈ texts, Item t := by
    intro t ht
    simp only [texts, List.mem_cons, List.not_mem_nil, or_false] at ht
    rcases ht with rfl | rfl
    · exact ⟨by decide, by decide, by decide⟩
    · exact ⟨by decide, by decide, by decide⟩
  have hlisting : Listing texts b :=
    .text hspace htab (Or.inr rfl) (.blank hempty (Or.inl rfl) (.last hempty hspace))
  have hplain : "--" ∉ flags := by decide
  have hnames : Arguments.NamesInput "-" ["--input", "-"] := .apart (Or.inl rfl) (by decide)
  have hnone : ∀ o, Arguments.parse flags = .ok o → o.input = none := by
    intro o ho
    have hflags : Arguments.parse flags = .ok ⟨[], none, .jsonLines, none, false, true, false, 0, 0⟩ :=
      rfl
    obtain rfl := Except.ok.inj (hflags.symm.trans ho)
    rfl
  obtain ⟨-, hsame⟩ := listing_as_arguments .unasked texts b "-" w (by decide) hitems hlisting rfl
  exact ⟨by decide, hitems, hlisting, rfl, hplain, hnames, hnone, hsame _ _ hplain hnames hnone⟩

end DBusTypes
