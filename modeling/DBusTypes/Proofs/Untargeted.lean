import DBusTypes.Proofs.Options

/-!
# Arguments without the target

Arguments may be taken without the option for the target and without its value. What they set then is
what they set with it, but for the target.

Both are taken side by side. Where the option for the target is met, there is nothing to take without
it, so an option that was pending before stays pending there for longer. This is all that the two may
differ in on the way, beside the target itself.

* `Arguments.untargeted` — arguments without the target
* `Arguments.Follows` — **how far the drafts may differ on the way**
* `Arguments.take_untargeted`, `Arguments.takeAll_untargeted` — one argument, and all of them
* `Arguments.parse_untargeted` — the same of the options
-/

namespace DBusTypes.Arguments

/-! ## Arguments without the target -/

/-- Short names that share a dash, up to that of the target if it is among them, and whether its value
is still to come. -/
def untargetedNames : List Char → List Char × Bool
  | [] => ([], false)
  | c :: rest =>
    match short? c with
    | some (.setting .target) => ([], rest.isEmpty)
    | some (.switch _) => (c :: (untargetedNames rest).1, (untargetedNames rest).2)
    | _ => (c :: rest, false)

/-- What is left of an argument without the option for the target, and whether the value of that option
is still to come. -/
def untargetedArg (arg : String) : List String × Bool :=
  match arg.toList with
  | '-' :: '-' :: rest =>
    if long? (String.ofList (rest.takeWhile (· != '='))) = some (.setting .target) then
      ([], (rest.dropWhile (· != '=')).isEmpty)
    else ([arg], false)
  | '-' :: c :: rest =>
    (match (untargetedNames (c :: rest)).1 with
      | [] => []
      | names => [String.ofList ('-' :: names)], (untargetedNames (c :: rest)).2)
  | _ => ([arg], false)

/-- Arguments without the option for the target and without its value, where the first may be the value
that is awaited. -/
def untargeted (awaited : Bool) : List String → List String
  | [] => []
  | arg :: args =>
    if awaited then untargeted false args
    else if arg = "--" then arg :: args
    else (untargetedArg arg).1 ++ untargeted (untargetedArg arg).2 args

/-! ## Drafts without the target -/

variable {d d' e : Draft} {pending pending' q : Pending} {arg : String}

/-- A draft as if the target had not been set. -/
def Draft.untargeted (d : Draft) : Draft := { d with target := none }

/-- Whether the value of the target is still to come. -/
def Pending.targetAwaited : Pending → Bool
  | some (.target, none) => true
  | _ => false

/-- What an option is set to counts only if it was not set before. -/
theorem map_once {c : Bool} (f : Draft → Draft) (x : Except UsageError Draft) :
    (if c then .error .repeated else x).map f = if c then .error .repeated else x.map f := by
  cases c <;> rfl

/-- Other options than the target are set all the same. -/
theorem assign_untargeted {s : Setting} {v : Option String} (hs : s ≠ .target)
    (h : assign d s v = .ok e) : assign d.untargeted s v = .ok e.untargeted := by
  have hmap : assign d.untargeted s v = (assign d s v).map Draft.untargeted := by
    cases v with
    | none => rfl
    | some v =>
      cases s with
      | target => exact absurd rfl hs
      | input =>
        simp only [assign, map_once]
        rfl
      | format =>
        simp only [assign, map_once]
        cases format? v <;> rfl
      | threads =>
        simp only [assign, map_once]
        cases number? v <;> rfl
  rw [hmap, h]
  rfl

theorem turnOn_untargeted {s : Switch} (h : turnOn d s = .ok e) :
    turnOn d.untargeted s = .ok e.untargeted := by
  have hmap : turnOn d.untargeted s = (turnOn d s).map Draft.untargeted := by
    cases s with
    | overwrite | tree | anyLength =>
      simp only [turnOn, map_once]
      rfl
    | verbose | help => rfl
  rw [hmap, h]
  rfl

theorem untargeted_of_assign_target {v : Option String} (h : assign d .target v = .ok e) :
    e.untargeted = d.untargeted := by
  cases v with
  | none => exact absurd h (by simp [assign])
  | some v =>
    obtain rfl := Except.ok.inj (eq_ok_of_once h)
    rfl

/-! ## Side by side -/

/-- What arguments without the target may have made, where with it they have made a draft with
something pending. -/
inductive Follows (d : Draft) (pending : Pending) : Draft → Pending → Prop
  /-- The same is pending, and it is not the target. -/
  | same (h : ∀ v, pending ≠ some (.target, v)) : Follows d pending d.untargeted pending
  /-- An option may still be pending that was set when the target was met. -/
  | late {d' : Draft} {pending' : Pending} (h : pending = none ∨ ∃ v, pending = some (.target, v))
      (hflush : flush d' pending' = .ok d.untargeted) : Follows d pending d' pending'

theorem Follows.start (d : Draft) : Follows d none d.untargeted none := .same (by simp)

/-- Once what is pending is set, the drafts differ in the target only. -/
theorem Follows.flush (hf : Follows d pending d' pending') (h : flush d pending = .ok e) :
    Arguments.flush d' pending' = .ok e.untargeted := by
  cases hf with
  | same hother =>
    cases pending with
    | none =>
      obtain rfl := Except.ok.inj h
      rfl
    | some p =>
      obtain ⟨s, v⟩ := p
      have hs : s ≠ .target := by
        rintro rfl
        exact hother v rfl
      exact assign_untargeted hs h
  | late htarget hflush =>
    rw [hflush]
    rcases htarget with rfl | ⟨v, rfl⟩
    · obtain rfl := Except.ok.inj h
      rfl
    · rw [untargeted_of_assign_target h]

/-! ## Names and values -/

theorem supply_untargeted {s : Setting} {v : Option String} (hs : s ≠ .target)
    (h : supply d s v = .ok (e, q)) :
    supply d.untargeted s v = .ok (e.untargeted, q) ∧ Follows e q e.untargeted q ∧
      q.targetAwaited = false := by
  cases v with
  | none =>
    obtain ⟨rfl, rfl⟩ := Prod.mk.inj (Except.ok.inj h)
    refine ⟨rfl, .same (by simp [hs]), ?_⟩
    cases s <;> first | rfl | exact absurd rfl hs
  | some v =>
    obtain ⟨d₁, hset, h⟩ := bind_eq_ok.mp h
    obtain ⟨rfl, rfl⟩ := Prod.mk.inj (Except.ok.inj h)
    exact ⟨bind_eq_ok.mpr ⟨_, assign_untargeted hs hset, rfl⟩, .start d₁, rfl⟩

/-- Where the target is set, nothing needs to be done without it. -/
theorem supply_target {v : Option String} (hflush : flush d' pending' = .ok d.untargeted)
    (h : supply d .target v = .ok (e, q)) :
    Follows e q d' pending' ∧ q.targetAwaited = v.isNone := by
  cases v with
  | none =>
    obtain ⟨rfl, rfl⟩ := Prod.mk.inj (Except.ok.inj h)
    exact ⟨.late (.inr ⟨none, rfl⟩) hflush, rfl⟩
  | some v =>
    obtain ⟨d₁, hset, h⟩ := bind_eq_ok.mp h
    obtain ⟨rfl, rfl⟩ := Prod.mk.inj (Except.ok.inj h)
    rw [← untargeted_of_assign_target hset] at hflush
    exact ⟨.late (.inl rfl) hflush, rfl⟩

/-! ## One argument -/

/-- Short names are taken without that of the target and what is behind it. -/
theorem cluster_untargeted {cs : List Char} (h : cluster d pending cs = .ok (e, q))
    (hf : Follows d pending d' pending') :
    (∃ e' q', cluster d' pending' (untargetedNames cs).1 = .ok (e', q') ∧ Follows e q e' q') ∧
      q.targetAwaited = (cs.isEmpty && pending.targetAwaited || (untargetedNames cs).2) := by
  induction cs generalizing d pending d' pending' with
  | nil =>
    obtain ⟨rfl, rfl⟩ := Prod.mk.inj (Except.ok.inj h)
    exact ⟨⟨d', pending', rfl, hf⟩, by simp [untargetedNames]⟩
  | cons c rest ih =>
    cases hname : short? c with
    | none =>
      rw [cluster, hname] at h
      exact absurd h (by simp)
    | some n =>
      cases n with
      | switch s =>
        rw [cluster, hname] at h
        obtain ⟨d₁, hflush, h⟩ := bind_eq_ok.mp h
        obtain ⟨d₂, hon, h⟩ := bind_eq_ok.mp h
        obtain ⟨⟨e', q', hrest, hf'⟩, hawaited⟩ := ih h (.start d₂)
        have hnames : untargetedNames (c :: rest) =
            (c :: (untargetedNames rest).1, (untargetedNames rest).2) := by
          rw [untargetedNames, hname]
        rw [hnames, hawaited]
        refine ⟨⟨e', q', ?_, hf'⟩, by simp [Pending.targetAwaited]⟩
        rw [cluster, hname]
        exact bind_eq_ok.mpr ⟨_, hf.flush hflush, bind_eq_ok.mpr ⟨_, turnOn_untargeted hon, hrest⟩⟩
      | setting s =>
        obtain ⟨v, hv, hcluster⟩ := cluster_setting hname rest
        rw [hcluster] at h
        obtain ⟨d₁, hflush, h⟩ := bind_eq_ok.mp h
        have hflush' := hf.flush hflush
        by_cases hs : s = .target
        · subst hs
          have hnames : untargetedNames (c :: rest) = ([], rest.isEmpty) := by
            rw [untargetedNames, hname]
          obtain ⟨hf', hawaited⟩ := supply_target hflush' h
          rw [hnames, hawaited, hv]
          exact ⟨⟨d', pending', rfl, hf'⟩, rfl⟩
        · have hnames : untargetedNames (c :: rest) = (c :: rest, false) := by
            rw [untargetedNames, hname]
            cases s <;> first | rfl | exact absurd rfl hs
          obtain ⟨hsupply, hf', hawaited⟩ := supply_untargeted hs h
          rw [hnames, hawaited]
          refine ⟨⟨_, _, ?_, hf'⟩, rfl⟩
          rw [hcluster]
          exact bind_eq_ok.mpr ⟨_, hflush', hsupply⟩

/-- A long name other than that of the target is taken without the target all the same. -/
theorem named_untargeted {name : String} {value : List Char}
    (hname : long? name ≠ some (.setting .target)) (h : named d pending name value = .ok (e, q))
    (hf : Follows d pending d' pending') :
    (∃ e' q', named d' pending' name value = .ok (e', q') ∧ Follows e q e' q') ∧
      q.targetAwaited = false := by
  cases hlong : long? name with
  | none =>
    unfold named at h
    rw [hlong] at h
    exact absurd h (by simp)
  | some n =>
    cases n with
    | switch s =>
      unfold named at h
      rw [hlong] at h
      cases value with
      | cons c v => exact absurd h (by simp)
      | nil =>
        obtain ⟨d₁, hflush, h⟩ := bind_eq_ok.mp h
        obtain ⟨d₂, hon, h⟩ := bind_eq_ok.mp h
        obtain ⟨rfl, rfl⟩ := Prod.mk.inj (Except.ok.inj h)
        refine ⟨⟨_, _, ?_, .start d₂⟩, rfl⟩
        unfold named
        rw [hlong]
        exact bind_eq_ok.mpr ⟨_, hf.flush hflush, bind_eq_ok.mpr ⟨_, turnOn_untargeted hon, rfl⟩⟩
    | setting s =>
      obtain ⟨v, -, hnamed⟩ := named_setting hlong value
      rw [hnamed] at h
      obtain ⟨d₁, hflush, h⟩ := bind_eq_ok.mp h
      have hs : s ≠ .target := by
        rintro rfl
        exact hname hlong
      obtain ⟨hsupply, hf', hawaited⟩ := supply_untargeted hs h
      refine ⟨⟨_, _, ?_, hf'⟩, hawaited⟩
      rw [hnamed]
      exact bind_eq_ok.mpr ⟨_, hf.flush hflush, hsupply⟩

/-- Where what is pending can be set, an argument without a dash in front is a signature. -/
theorem plain_of_flush (h : flush d pending = .ok e) (arg : String) :
    plain d pending arg = .ok ({ e with signatures := e.signatures ++ [arg] }, none) := by
  rcases pending with _ | ⟨s, _ | v⟩
  · obtain rfl := Except.ok.inj h
    rfl
  · exact absurd h (by simp [flush, assign])
  · exact bind_eq_ok.mpr ⟨_, h, rfl⟩

theorem plain_untargeted (h : plain d pending arg = .ok (e, q)) (hf : Follows d pending d' pending')
    (hnot : pending.targetAwaited = false) :
    (∃ e' q', plain d' pending' arg = .ok (e', q') ∧ Follows e q e' q') ∧
      q.targetAwaited = false := by
  have hset : ∀ d₁, flush d pending = .ok d₁ →
      (∃ e' q', plain d' pending' arg = .ok (e', q') ∧ Follows e q e' q') ∧
        q.targetAwaited = false := by
    intro d₁ hflush
    obtain ⟨rfl, rfl⟩ := Prod.mk.inj (Except.ok.inj ((plain_of_flush hflush arg).symm.trans h))
    exact ⟨⟨_, _, plain_of_flush (hf.flush hflush) arg, .start _⟩, rfl⟩
  rcases pending with _ | ⟨s, _ | v⟩
  · exact hset d rfl
  · -- The argument is the value that is awaited, and not by the target.
    obtain ⟨rfl, rfl⟩ := Prod.mk.inj (Except.ok.inj h)
    have hs : s ≠ .target := by
      rintro rfl
      exact absurd hnot (by simp [Pending.targetAwaited])
    cases hf with
    | same => exact ⟨⟨_, _, rfl, .same (by simp [hs])⟩, by cases s <;> rfl⟩
    | late htarget => exact absurd htarget (by simp [hs])
  · obtain ⟨d₁, hflush, -⟩ := bind_eq_ok.mp h
    exact hset d₁ hflush

/-! ## What is left of an argument -/

variable {c : Char} {rest : List Char}

theorem untargetedArg_long (harg : arg.toList = '-' :: '-' :: rest) :
    untargetedArg arg =
      if long? (String.ofList (rest.takeWhile (· != '='))) = some (.setting .target) then
        ([], (rest.dropWhile (· != '=')).isEmpty)
      else ([arg], false) := by
  simp only [untargetedArg, harg]

theorem untargetedArg_short (harg : arg.toList = '-' :: c :: rest) (hc : c ≠ '-') :
    untargetedArg arg = (match (untargetedNames (c :: rest)).1 with
      | [] => []
      | names => [String.ofList ('-' :: names)], (untargetedNames (c :: rest)).2) := by
  simp only [untargetedArg, harg]

theorem untargetedArg_plain (h : isOption arg = false) : untargetedArg arg = ([arg], false) := by
  unfold untargetedArg
  split
  · next harg => exact absurd harg (ne_of_not_isOption h)
  · next harg => exact absurd harg (ne_of_not_isOption h)
  · rfl

/-- Short names keep the first of them in front, unless it is that of the target. -/
theorem untargetedNames_cons (c : Char) (rest : List Char) :
    (untargetedNames (c :: rest)).1 = [] ∨ ∃ names, (untargetedNames (c :: rest)).1 = c :: names := by
  rw [untargetedNames]
  split
  · exact .inl rfl
  · exact .inr ⟨_, rfl⟩
  · exact .inr ⟨_, rfl⟩

/-! ## All arguments -/

theorem takeAll_cons (hdashes : arg ≠ "--") (h : take d pending arg = .ok (e, q))
    (args : List String) : takeAll d pending (arg :: args) = takeAll e q args := by
  rw [takeAll, if_neg hdashes, h]

/-- **What is left of an argument without the target is taken in its place.** -/
theorem take_untargeted (hdashes : arg ≠ "--") (h : take d pending arg = .ok (e, q))
    (hf : Follows d pending d' pending') (hnot : pending.targetAwaited = false) :
    (∃ e' q', Follows e q e' q' ∧ ∀ args,
      takeAll d' pending' ((untargetedArg arg).1 ++ args) = takeAll e' q' args) ∧
      q.targetAwaited = (untargetedArg arg).2 := by
  rcases arg_cases arg with ⟨rest, harg⟩ | ⟨c, rest, harg, hc⟩ | hplain
  · rw [take_long harg] at h
    rw [untargetedArg_long harg]
    split
    · next hname =>
      obtain ⟨v, hv, hnamed⟩ := named_setting hname (rest.dropWhile (· != '='))
      rw [hnamed] at h
      obtain ⟨d₁, hflush, h⟩ := bind_eq_ok.mp h
      obtain ⟨hf', hawaited⟩ := supply_target (hf.flush hflush) h
      exact ⟨⟨d', pending', hf', fun _ => rfl⟩, hawaited.trans hv⟩
    · next hname =>
      obtain ⟨⟨e', q', hnamed, hf'⟩, hawaited⟩ := named_untargeted hname h hf
      rw [← take_long harg] at hnamed
      exact ⟨⟨e', q', hf', takeAll_cons hdashes hnamed⟩, hawaited⟩
  · rw [take_short harg hc] at h
    obtain ⟨⟨e', q', hcluster, hf'⟩, hawaited⟩ := cluster_untargeted h hf
    rw [untargetedArg_short harg hc]
    refine ⟨⟨e', q', hf', fun args => ?_⟩, by simpa using hawaited⟩
    rcases untargetedNames_cons c rest with hnil | ⟨names, hnames⟩
    · rw [hnil] at hcluster ⊢
      obtain ⟨rfl, rfl⟩ := Prod.mk.inj (Except.ok.inj hcluster)
      rfl
    · rw [hnames] at hcluster ⊢
      have harg' : (String.ofList ('-' :: c :: names)).toList = '-' :: c :: names :=
        String.toList_ofList
      have hdashes' : String.ofList ('-' :: c :: names) ≠ "--" := by
        intro heq
        rw [heq] at harg'
        exact hc (List.cons.inj (List.cons.inj harg').2).1.symm
      rw [← take_short harg' hc] at hcluster
      exact takeAll_cons hdashes' hcluster args
  · rw [take_plain hplain] at h
    rw [untargetedArg_plain hplain]
    obtain ⟨⟨e', q', htake, hf'⟩, hawaited⟩ := plain_untargeted h hf hnot
    rw [← take_plain hplain] at htake
    exact ⟨⟨e', q', hf', takeAll_cons hdashes htake⟩, hawaited⟩

/-- An option is taken once what is pending can be set. -/
theorem exists_flush_of_take (hoption : isOption arg = true) (h : take d pending arg = .ok (e, q)) :
    ∃ d₁, flush d pending = .ok d₁ := by
  rcases arg_cases arg with ⟨rest, harg⟩ | ⟨c, rest, harg, hc⟩ | hplain
  · rw [take_long harg] at h
    unfold named at h
    split at h
    · exact absurd h (by simp)
    · exact absurd h (by simp)
    all_goals
      obtain ⟨d₁, hflush, -⟩ := bind_eq_ok.mp h
      exact ⟨d₁, hflush⟩
  · rw [take_short harg hc, cluster] at h
    split at h
    · exact absurd h (by simp)
    all_goals
      obtain ⟨d₁, hflush, -⟩ := bind_eq_ok.mp h
      exact ⟨d₁, hflush⟩
  · rw [hplain] at hoption
    exact absurd hoption Bool.false_ne_true

/-- Where a value is awaited, it is the argument that follows. -/
theorem take_awaited {s : Setting} (h : take d (some (s, none)) arg = .ok (e, q)) :
    e = d ∧ q = some (s, some arg) := by
  cases hoption : isOption arg with
  | true =>
    obtain ⟨d₁, hflush⟩ := exists_flush_of_take hoption h
    exact absurd hflush (by simp [flush, assign])
  | false =>
    rw [take_plain hoption] at h
    obtain ⟨rfl, rfl⟩ := Prod.mk.inj (Except.ok.inj h)
    exact ⟨rfl, rfl⟩

theorem eq_of_targetAwaited (h : pending.targetAwaited = true) : pending = some (.target, none) := by
  unfold Pending.targetAwaited at h
  split at h
  · rfl
  · exact absurd h Bool.false_ne_true

/-- **All arguments**: the drafts that come of them differ in the target only. -/
theorem takeAll_untargeted {args : List String} (h : takeAll d pending args = .ok e)
    (hf : Follows d pending d' pending') :
    takeAll d' pending' (untargeted pending.targetAwaited args) = .ok e.untargeted := by
  induction args generalizing d pending d' pending' with
  | nil => exact hf.flush h
  | cons arg args ih =>
    rw [takeAll] at h
    rw [untargeted]
    cases hawaited : pending.targetAwaited with
    | true =>
      obtain rfl := eq_of_targetAwaited hawaited
      rw [if_pos rfl]
      split at h
      · obtain ⟨d₁, hflush, -⟩ := bind_eq_ok.mp h
        exact absurd hflush (by simp [flush, assign])
      · split at h
        · next d₁ q htake =>
          obtain ⟨rfl, rfl⟩ := take_awaited htake
          have hf' : Follows d₁ (some (.target, some arg)) d' pending' := by
            cases hf with
            | same hother => exact absurd rfl (hother none)
            | late _ hflush => exact .late (.inr ⟨_, rfl⟩) hflush
          exact ih h hf'
        · exact absurd h (by simp)
    | false =>
      rw [if_neg Bool.false_ne_true]
      split at h
      · next hdashes =>
        obtain ⟨d₁, hflush, h⟩ := bind_eq_ok.mp h
        obtain rfl := Except.ok.inj h
        rw [if_pos hdashes, takeAll, if_pos hdashes, hf.flush hflush]
        rfl
      · next hdashes =>
        rw [if_neg hdashes]
        split at h
        · next d₁ q htake =>
          obtain ⟨⟨e', q', hf', hargs⟩, hq⟩ := take_untargeted hdashes htake hf hawaited
          rw [hargs, ← hq]
          exact ih h hf'
        · exact absurd h (by simp)

/-- **The options that are set differ in the target only.** -/
theorem parse_untargeted {args : List String} {o : Options} (h : parse args = .ok o) :
    parse (untargeted false args) = .ok { o with target := none } := by
  unfold parse at h ⊢
  cases htake : takeAll .empty none args with
  | error e =>
    rw [htake] at h
    exact absurd h (by simp [Except.map])
  | ok d =>
    rw [htake] at h
    obtain rfl := Except.ok.inj h
    have hall : takeAll .empty none (untargeted false args) = .ok d.untargeted :=
      takeAll_untargeted htake (.start .empty)
    rw [hall]
    rfl

example : untargeted false ["-vf", "out.txt", "i", "--tree", "-o", "json", "--", "-f"] =
    ["-v", "i", "--tree", "-o", "json", "--", "-f"] := by decide

end DBusTypes.Arguments
