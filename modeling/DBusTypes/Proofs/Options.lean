import Mathlib.Data.List.TakeWhile
import DBusTypes.Command.Arguments
import DBusTypes.Proofs.Results

/-!
# What arguments set

Of what options hold, two things are traced back to the arguments here: the signatures, which are the
positional arguments in their order, and the consent to overwriting, which takes an argument of its
own.

Which arguments are positional can be told without setting any option: an argument with a dash in
front is an option, and the one behind it is its value if the option ends in a name that takes one.

* `Arguments.positional` — the positional arguments
* `Arguments.Taken` — what taking arguments makes of a draft
* `Arguments.taken_take`, `Arguments.taken_takeAll` — one argument, and all of them
* `Arguments.signatures_of_parse`, `Arguments.mem_of_overwrite` — the same of the options
-/

namespace DBusTypes.Arguments

/-! ## Positional arguments -/

/-- Whether short names that share a dash end in one whose value is still to come. -/
def awaitsAfter : List Char → Bool
  | [] => false
  | c :: rest =>
    match short? c with
    | some (.setting _) => rest.isEmpty
    | some (.switch _) => awaitsAfter rest
    | none => false

/-- Whether an argument sets options. -/
def isOption (arg : String) : Bool :=
  match arg.toList with
  | '-' :: _ :: _ => true
  | _ => false

/-- Whether an argument ends in the name of an option whose value is still to come. -/
def awaits (arg : String) : Bool :=
  match arg.toList with
  | '-' :: '-' :: name =>
    match long? (String.ofList name) with
    | some (.setting _) => true
    | _ => false
  | '-' :: c :: rest => awaitsAfter (c :: rest)
  | _ => false

/-- The arguments that are neither options nor values of options, where the first may be a value that
is awaited. -/
def positional (awaited : Bool) : List String → List String
  | [] => []
  | arg :: args =>
    if arg = "--" then args
    else if isOption arg then positional (awaits arg) args
    else if awaited then positional false args
    else arg :: positional false args

/-- Whether the value of a pending option is still to come. -/
def Pending.awaited : Pending → Bool
  | some (_, none) => true
  | _ => false

/-! ## Drafts -/

variable {d d' d'' : Draft} {pending pending' : Pending}

/-- Whether one draft has these signatures beyond another, and consent only if that is among the
arguments. -/
structure Taken (args signatures : List String) (d d' : Draft) : Prop where
  signatures : d'.signatures = d.signatures ++ signatures
  overwrite : d'.overwrite = true → d.overwrite = true ∨ "--no-confirm-overwrite" ∈ args

namespace Taken

variable {args args' texts texts' : List String}

theorem of_eq (hs : d'.signatures = d.signatures) (ho : d'.overwrite = d.overwrite) :
    Taken args [] d d' where
  signatures := by rw [hs, List.append_nil]
  overwrite h := Or.inl (ho.symm.trans h)

theorem refl (d : Draft) : Taken args [] d d := of_eq rfl rfl

theorem trans (h : Taken args texts d d') (h' : Taken args' texts' d' d'') :
    Taken (args ++ args') (texts ++ texts') d d'' where
  signatures := by rw [h'.signatures, h.signatures, List.append_assoc]
  overwrite ho := by
    rcases h'.overwrite ho with hd | hmem
    · rcases h.overwrite hd with hd | hmem
      · exact Or.inl hd
      · exact Or.inr (List.mem_append_left _ hmem)
    · exact Or.inr (List.mem_append_right _ hmem)

end Taken

/-! ## Options -/

/-- What is set was not set before. -/
theorem eq_ok_of_once {α : Type} {c : Bool} {x : Except UsageError α} {a : α}
    (h : (if c then .error .repeated else x) = .ok a) : x = .ok a := by
  cases c with
  | true => exact absurd h (by simp)
  | false => exact h

theorem taken_assign {s : Setting} {v : Option String} (h : assign d s v = .ok d') :
    Taken [] [] d d' := by
  cases v with
  | none => exact absurd h (by simp [assign])
  | some v =>
    cases s with
    | input =>
      obtain rfl := Except.ok.inj (eq_ok_of_once h)
      exact .of_eq rfl rfl
    | target =>
      obtain rfl := Except.ok.inj (eq_ok_of_once h)
      exact .of_eq rfl rfl
    | format =>
      have hformat := eq_ok_of_once h
      split at hformat
      · obtain rfl := Except.ok.inj hformat
        exact .of_eq rfl rfl
      · exact absurd hformat (by simp)
    | threads =>
      have hnumber := eq_ok_of_once h
      split at hnumber
      · obtain rfl := Except.ok.inj hnumber
        exact .of_eq rfl rfl
      · exact absurd hnumber (by simp)

theorem taken_flush (h : flush d pending = .ok d') : Taken [] [] d d' := by
  cases pending with
  | none =>
    obtain rfl := Except.ok.inj h
    exact .refl d
  | some p => exact taken_assign h

/-- A switch other than the consent to overwriting gives no consent. -/
theorem taken_turnOn {s : Switch} (hs : s ≠ .overwrite) (h : turnOn d s = .ok d') :
    Taken [] [] d d' := by
  cases s with
  | overwrite => exact absurd rfl hs
  | tree | anyLength =>
    obtain rfl := Except.ok.inj (eq_ok_of_once h)
    exact .of_eq rfl rfl
  | verbose =>
    obtain rfl := Except.ok.inj h
    exact .of_eq rfl rfl
  | help => exact absurd h (by simp [turnOn])

/-- No short name stands for the consent to overwriting. -/
theorem short?_ne_overwrite {c : Char} : short? c ≠ some (.switch .overwrite) := by
  unfold short?
  split <;> simp

/-- Sets an option to the value that stands with its name; without one it is pending. -/
def supply (d : Draft) (s : Setting) : Option String → Except UsageError (Draft × Pending)
  | none => .ok (d, some (s, none))
  | some v => do return (← assign d s (some v), none)

/-- Behind a short name there is a value, or nothing. -/
theorem cluster_setting {c : Char} {s : Setting} (hname : short? c = some (.setting s))
    (rest : List Char) : ∃ v : Option String, v.isNone = rest.isEmpty ∧ ∀ d pending,
      cluster d pending (c :: rest) = flush d pending >>= fun d => supply d s v := by
  rcases rest with _ | ⟨b, rest⟩
  · refine ⟨none, rfl, fun d pending => ?_⟩
    rw [cluster, hname]
    rfl
  · by_cases hb : b = '='
    · subst hb
      refine ⟨some (String.ofList rest), rfl, fun d pending => ?_⟩
      rw [cluster, hname]
      rfl
    · refine ⟨some (String.ofList (b :: rest)), rfl, fun d pending => ?_⟩
      rw [cluster, hname]
      simp [supply, hb]

/-- Behind a long name there is an equals sign and a value, or nothing. -/
theorem named_setting {name : String} {s : Setting} (hname : long? name = some (.setting s))
    (value : List Char) : ∃ v : Option String, v.isNone = value.isEmpty ∧ ∀ d pending,
      named d pending name value = flush d pending >>= fun d => supply d s v := by
  cases value with
  | nil =>
    refine ⟨none, rfl, fun d pending => ?_⟩
    unfold named
    rw [hname]
    rfl
  | cons c v =>
    refine ⟨some (String.ofList v), rfl, fun d pending => ?_⟩
    unfold named
    rw [hname]
    rfl

theorem taken_supply {s : Setting} {v : Option String} (h : supply d s v = .ok (d', pending')) :
    Taken [] [] d d' ∧ pending'.awaited = v.isNone := by
  cases v with
  | none =>
    obtain ⟨rfl, rfl⟩ := Prod.mk.inj (Except.ok.inj h)
    exact ⟨.refl d, rfl⟩
  | some v =>
    obtain ⟨d₁, hset, h⟩ := bind_eq_ok.mp h
    obtain ⟨rfl, rfl⟩ := Prod.mk.inj (Except.ok.inj h)
    exact ⟨taken_assign hset, rfl⟩

/-- Short names set neither signatures nor the consent to overwriting, and the last may await its
value. -/
theorem taken_cluster {cs : List Char} (h : cluster d pending cs = .ok (d', pending')) :
    Taken [] [] d d' ∧ pending'.awaited = (cs.isEmpty && pending.awaited || awaitsAfter cs) := by
  induction cs generalizing d pending with
  | nil =>
    obtain ⟨rfl, rfl⟩ := Prod.mk.inj (Except.ok.inj h)
    exact ⟨.refl d, by simp [awaitsAfter]⟩
  | cons c rest ih =>
    cases hname : short? c with
    | none =>
      rw [cluster, hname] at h
      exact absurd h (by simp)
    | some n =>
      cases n with
      | switch s =>
        rw [cluster, hname] at h
        obtain ⟨d₁, hflush, h⟩ := bind_eq_ok.mp h
        obtain ⟨d₂, hon, h⟩ := bind_eq_ok.mp h
        obtain ⟨hrest, hawaited⟩ := ih h
        have hne : s ≠ .overwrite := by
          rintro rfl
          exact short?_ne_overwrite hname
        refine ⟨((taken_flush hflush).trans (taken_turnOn hne hon)).trans hrest, ?_⟩
        rw [hawaited]
        simp [awaitsAfter, hname, Pending.awaited]
      | setting s =>
        obtain ⟨v, hv, hcluster⟩ := cluster_setting hname rest
        rw [hcluster] at h
        obtain ⟨d₁, hflush, h⟩ := bind_eq_ok.mp h
        obtain ⟨hset, hawaited⟩ := taken_supply h
        refine ⟨(taken_flush hflush).trans hset, ?_⟩
        rw [hawaited, hv]
        simp [awaitsAfter, hname]

/-- Only one long name stands for the consent to overwriting. -/
theorem eq_of_long?_overwrite {name : String} (h : long? name = some (.switch .overwrite)) :
    name = "no-confirm-overwrite" := by
  unfold long? at h
  split at h <;> first | rfl | exact absurd h (by simp)

/-- No long name has an equals sign in it. -/
theorem long?_eq_none {name : String} (h : '=' ∈ name.toList) : long? name = none := by
  unfold long?
  split <;> first | rfl | exact absurd h (by decide)

/-- A long name gives consent to overwriting only if it is the name for that, and nothing follows. Only
the name of a setting awaits a value, if nothing follows. -/
theorem taken_named {args : List String} {name : String} {value : List Char}
    (h : named d pending name value = .ok (d', pending'))
    (harg : name = "no-confirm-overwrite" → value = [] → "--no-confirm-overwrite" ∈ args) :
    Taken args [] d d' ∧
      (pending'.awaited = true ↔ value = [] ∧ ∃ s, long? name = some (.setting s)) := by
  cases hname : long? name with
  | none =>
    unfold named at h
    rw [hname] at h
    exact absurd h (by simp)
  | some n =>
    cases n with
    | switch s =>
      unfold named at h
      rw [hname] at h
      cases value with
      | cons c v => exact absurd h (by simp)
      | nil =>
        obtain ⟨d₁, hflush, h⟩ := bind_eq_ok.mp h
        obtain ⟨d₂, hon, h⟩ := bind_eq_ok.mp h
        obtain ⟨rfl, rfl⟩ := Prod.mk.inj (Except.ok.inj h)
        refine ⟨(taken_flush hflush).trans ?_, by simp [Pending.awaited]⟩
        by_cases ho : s = .overwrite
        · subst ho
          have hmem := harg (eq_of_long?_overwrite hname) rfl
          obtain rfl := Except.ok.inj (eq_ok_of_once hon)
          exact ⟨(List.append_nil _).symm, fun _ => Or.inr hmem⟩
        · exact (taken_turnOn ho hon).trans (.refl _)
    | setting s =>
      obtain ⟨v, hv, hnamed⟩ := named_setting hname value
      rw [hnamed] at h
      obtain ⟨d₁, hflush, h⟩ := bind_eq_ok.mp h
      obtain ⟨hset, hawaited⟩ := taken_supply h
      refine ⟨((taken_flush hflush).trans hset).trans (.refl _), ?_⟩
      rw [hawaited, hv]
      simp

/-! ## The forms of an argument -/

variable {arg : String} {c : Char} {rest : List Char}

/-- An argument has two dashes in front, or one, or sets no option. -/
theorem arg_cases (arg : String) : (∃ rest, arg.toList = '-' :: '-' :: rest) ∨
    (∃ c rest, arg.toList = '-' :: c :: rest ∧ c ≠ '-') ∨ isOption arg = false := by
  unfold isOption
  split
  · next c rest harg =>
    by_cases hc : c = '-'
    · subst hc
      exact .inl ⟨rest, harg⟩
    · exact .inr (.inl ⟨c, rest, harg, hc⟩)
  · exact .inr (.inr rfl)

theorem isOption_of_dash (harg : arg.toList = '-' :: c :: rest) : isOption arg = true := by
  simp only [isOption, harg]

theorem ne_of_not_isOption (h : isOption arg = false) : arg.toList ≠ '-' :: c :: rest := by
  intro harg
  rw [isOption_of_dash harg] at h
  exact absurd h (by simp)

theorem take_long (harg : arg.toList = '-' :: '-' :: rest) (d : Draft) (pending : Pending) :
    take d pending arg =
      named d pending (String.ofList (rest.takeWhile (· != '='))) (rest.dropWhile (· != '=')) := by
  simp only [take, harg]

theorem take_short (harg : arg.toList = '-' :: c :: rest) (hc : c ≠ '-') (d : Draft)
    (pending : Pending) : take d pending arg = cluster d pending (c :: rest) := by
  simp only [take, harg]

theorem take_plain (h : isOption arg = false) (d : Draft) (pending : Pending) :
    take d pending arg = plain d pending arg := by
  unfold take
  split
  · next harg => exact absurd harg (ne_of_not_isOption h)
  · next harg => exact absurd harg (ne_of_not_isOption h)
  · rfl

/-! ## Arguments -/

/-- Arguments that are signatures are added behind those there are. -/
theorem taken_signatures (d : Draft) (args : List String) :
    Taken args args d { d with signatures := d.signatures ++ args } := ⟨rfl, Or.inl⟩

/-- An argument without a dash in front is the value that is awaited, or else a signature. -/
theorem taken_plain {arg : String} (h : plain d pending arg = .ok (d', pending')) :
    Taken [arg] (if pending.awaited then [] else [arg]) d d' ∧ pending'.awaited = false := by
  unfold plain at h
  split at h
  · obtain ⟨rfl, rfl⟩ := Prod.mk.inj (Except.ok.inj h)
    exact ⟨.refl d, rfl⟩
  · next hnot =>
    obtain ⟨d₁, hflush, h⟩ := bind_eq_ok.mp h
    obtain ⟨rfl, rfl⟩ := Prod.mk.inj (Except.ok.inj h)
    have hawaited : pending.awaited = false := by
      unfold Pending.awaited
      split
      · next s => exact absurd rfl (hnot s)
      · rfl
    rw [hawaited]
    exact ⟨(taken_flush hflush).trans (taken_signatures d₁ [arg]), rfl⟩

/-- An argument with two dashes awaits a value if it is the name of a setting, and nothing more. -/
theorem awaits_long (harg : arg.toList = '-' :: '-' :: rest) :
    awaits arg = true ↔ rest.dropWhile (· != '=') = [] ∧
      ∃ s, long? (String.ofList (rest.takeWhile (· != '='))) = some (.setting s) := by
  have hall : awaits arg = true ↔ ∃ s, long? (String.ofList rest) = some (.setting s) := by
    simp only [awaits, harg]
    split
    · next s hs => simp [hs]
    · next hno => simpa using hno
  rw [hall]
  by_cases hmem : '=' ∈ rest
  · have hvalue : rest.dropWhile (· != '=') ≠ [] := by
      intro hnil
      exact absurd (List.dropWhile_eq_nil_iff.mp hnil '=' hmem) (by simp)
    rw [long?_eq_none (by simpa using hmem)]
    simp [hvalue]
  · have hvalue : rest.dropWhile (· != '=') = [] := by
      refine List.dropWhile_eq_nil_iff.mpr fun c hc => ?_
      have hne : c ≠ '=' := by
        rintro rfl
        exact hmem hc
      simpa using hne
    have hname := List.takeWhile_append_dropWhile (p := (· != '=')) (l := rest)
    rw [hvalue, List.append_nil] at hname
    rw [hname]
    simp [hvalue]

theorem awaits_short (harg : arg.toList = '-' :: c :: rest) (hc : c ≠ '-') :
    awaits arg = awaitsAfter (c :: rest) := by
  simp only [awaits, harg]

theorem awaits_of_not_isOption (h : isOption arg = false) : awaits arg = false := by
  unfold awaits
  split
  · next harg => exact absurd harg (ne_of_not_isOption h)
  · next harg => exact absurd harg (ne_of_not_isOption h)
  · rfl

/-- **What one argument sets.** -/
theorem taken_take (h : take d pending arg = .ok (d', pending')) :
    Taken [arg] (if isOption arg || pending.awaited then [] else [arg]) d d' ∧
      pending'.awaited = awaits arg := by
  rcases arg_cases arg with ⟨rest, harg⟩ | ⟨c, rest, harg, hc⟩ | hplain
  · rw [take_long harg] at h
    have hconsent : String.ofList (rest.takeWhile (· != '=')) = "no-confirm-overwrite" →
        rest.dropWhile (· != '=') = [] → "--no-confirm-overwrite" ∈ [arg] := by
      intro hname hvalue
      -- The name is all there is behind the dashes.
      have hrest : rest = "no-confirm-overwrite".toList := by
        rw [← List.takeWhile_append_dropWhile (p := (· != '=')) (l := rest), hvalue, List.append_nil,
          ← hname, String.toList_ofList]
      have heq : arg = "--no-confirm-overwrite" := by
        rw [← String.toList_inj, harg, hrest]
        rfl
      rw [heq]
      exact List.mem_cons_self
    obtain ⟨htaken, hawaited⟩ := taken_named h hconsent
    rw [isOption_of_dash harg]
    exact ⟨htaken, Bool.eq_iff_iff.mpr (hawaited.trans (awaits_long harg).symm)⟩
  · rw [take_short harg hc] at h
    obtain ⟨htaken, hawaited⟩ := taken_cluster h
    rw [isOption_of_dash harg, awaits_short harg hc, hawaited]
    exact ⟨htaken.trans (.refl _), rfl⟩
  · rw [take_plain hplain] at h
    rw [hplain, awaits_of_not_isOption hplain]
    exact taken_plain h

/-- **What all arguments set.** -/
theorem taken_takeAll {args : List String} (h : takeAll d pending args = .ok d') :
    Taken args (positional pending.awaited args) d d' := by
  induction args generalizing d pending with
  | nil => exact taken_flush h
  | cons arg args ih =>
    rw [takeAll] at h
    rw [positional]
    split at h
    · next hdashes =>
      obtain ⟨d₁, hflush, h⟩ := bind_eq_ok.mp h
      obtain rfl := Except.ok.inj h
      rw [if_pos hdashes]
      -- Behind two dashes all arguments are signatures.
      have hall := (taken_flush hflush).trans (taken_signatures d₁ args)
      have hdashes : Taken [arg] [] d d := .refl d
      exact hdashes.trans hall
    · next hdashes =>
      rw [if_neg hdashes]
      split at h
      · next d₁ pending₁ htake =>
        obtain ⟨hone, hawaited⟩ := taken_take htake
        have hall := hone.trans (ih h)
        rw [hawaited] at hall
        cases hoption : isOption arg with
        | true =>
          rw [hoption] at hall
          exact hall
        | false =>
          rw [hoption, awaits_of_not_isOption hoption] at hall
          cases hvalue : pending.awaited with
          | true =>
            rw [hvalue] at hall
            exact hall
          | false =>
            rw [hvalue] at hall
            exact hall
      · exact absurd h (by simp)

/-! ## The options -/

theorem taken_parse {args : List String} {o : Options} (h : parse args = .ok o) :
    ∃ d, o = d.options ∧ Taken args (positional false args) .empty d := by
  unfold parse at h
  cases htake : takeAll .empty none args with
  | error e =>
    rw [htake] at h
    exact absurd h (by simp [Except.map])
  | ok d =>
    rw [htake] at h
    exact ⟨d, (Except.ok.inj h).symm, taken_takeAll htake⟩

/-- **The signatures among the arguments are the positional ones**, in their order. -/
theorem signatures_of_parse {args : List String} {o : Options} (h : parse args = .ok o) :
    o.signatures = positional false args := by
  obtain ⟨d, rfl, hd⟩ := taken_parse h
  exact hd.signatures

example : positional false ["i", "-f", "out.txt", "-vo", "json", "--", "-x"] = ["i", "-x"] := by decide

/-- **Consent to overwriting is an argument of its own.** -/
theorem mem_of_overwrite {args : List String} {o : Options} (h : parse args = .ok o)
    (ho : o.overwrite = true) : "--no-confirm-overwrite" ∈ args := by
  obtain ⟨d, rfl, hd⟩ := taken_parse h
  rcases hd.overwrite ho with hempty | hmem
  · exact absurd hempty (by simp [Draft.empty])
  · exact hmem

end DBusTypes.Arguments
