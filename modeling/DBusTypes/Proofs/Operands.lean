import DBusTypes.Proofs.Options

/-!
# What arguments at the end add

Arguments are taken from left to right, so the ones at the end find set what the ones in front set.
All that stands behind two dashes is a signature, whatever it looks like.

* `Arguments.takeAll_append` — arguments at the end, after the others
* `Arguments.parse_operands` — **what stands behind two dashes is added to the signatures**
* `Arguments.NamesInput`, `Arguments.parse_input` — **the ways to say where to read from**
-/

namespace DBusTypes.Arguments

variable {d : Draft} {pending : Pending} {args more texts : List String} {o : Options} {path : String}

/-- An argument in front of others is taken first. -/
theorem takeAll_cons_eq {arg : String} (h : arg ≠ "--") (d : Draft) (pending : Pending)
    (args : List String) : takeAll d pending (arg :: args) =
      take d pending arg >>= fun s => takeAll s.1 s.2 args := by
  rw [takeAll, if_neg h]
  cases take d pending arg <;> rfl

/-- Arguments that first set what is pending, and then change what is set, do so after any others. -/
theorem takeAll_append {f : Draft → Except UsageError Draft} (hplain : "--" ∉ args)
    (hmore : ∀ d pending, takeAll d pending more = flush d pending >>= f) :
    takeAll d pending (args ++ more) = takeAll d pending args >>= f := by
  induction args generalizing d pending with
  | nil => exact hmore d pending
  | cons arg args ih =>
    have harg : arg ≠ "--" := by
      rintro rfl
      exact hplain List.mem_cons_self
    rw [List.cons_append, takeAll_cons_eq harg, takeAll_cons_eq harg]
    cases take d pending arg with
    | error e => rfl
    | ok s => exact ih fun hmem => hplain (List.mem_cons_of_mem arg hmem)

/-! ## Signatures behind two dashes -/

/-- **What stands behind two dashes is added to the signatures**, and nothing else changes. -/
theorem parse_operands (hplain : "--" ∉ args) (texts : List String) :
    parse (args ++ "--" :: texts) =
      (parse args).map fun o => { o with signatures := o.signatures ++ texts } := by
  have hmore : ∀ d pending, takeAll d pending ("--" :: texts) =
      flush d pending >>= fun d => .ok { d with signatures := d.signatures ++ texts } := by
    intro d pending
    rw [takeAll, if_pos rfl]
    rfl
  rw [parse, parse, takeAll_append hplain hmore]
  cases takeAll .empty none args <;> rfl

/-! ## An input -/

/-- The ways to say at the end of the arguments where to read from. A path that is an argument of its
own must not look like an option. -/
inductive NamesInput (path : String) : List String → Prop
  | apart {name : String} (hname : name = "--input" ∨ name = "-i") (h : isOption path = false) :
      NamesInput path [name, path]
  | together {name : String} (hname : name = "--input=" ∨ name = "-i=") :
      NamesInput path [name ++ path]

theorem take_input {name : String} (hname : name = "--input" ∨ name = "-i") (d : Draft)
    (pending : Pending) :
    take d pending name = flush d pending >>= fun d => .ok (d, some (.input, none)) := by
  rcases hname with rfl | rfl <;> rfl

theorem take_input_value {name : String} (hname : name = "--input=" ∨ name = "-i=") (d : Draft)
    (pending : Pending) (path : String) : take d pending (name ++ path) =
      flush d pending >>= fun d => (assign d .input (some path)).map fun d => (d, none) := by
  obtain ⟨cs, rfl⟩ : ∃ cs, path = String.ofList cs := ⟨path.toList, String.ofList_toList.symm⟩
  rcases hname with rfl | rfl
  · have harg : ("--input=" ++ String.ofList cs).toList = '-' :: '-' :: ("input=".toList ++ cs) := by
      rw [String.toList_append, String.toList_ofList (l := cs)]
      rfl
    have hname : ("input=".toList ++ cs).takeWhile (· != '=') = "input".toList := rfl
    have hvalue : ("input=".toList ++ cs).dropWhile (· != '=') = '=' :: cs := rfl
    rw [take_long harg, hname, hvalue, String.ofList_toList]
    rfl
  · have harg : ("-i=" ++ String.ofList cs).toList = '-' :: 'i' :: '=' :: cs := by
      rw [String.toList_append, String.toList_ofList (l := cs)]
      rfl
    rw [take_short harg (by decide), cluster]
    rfl

/-- What says where to read from sets what is pending first. -/
theorem NamesInput.takeAll_eq (h : NamesInput path more) (d : Draft) (pending : Pending) :
    takeAll d pending more = flush d pending >>= fun d => assign d .input (some path) := by
  cases h with
  | @apart name hname h =>
    have hne : name ≠ "--" := by rcases hname with rfl | rfl <;> decide
    have hpath : path ≠ "--" := by
      rintro rfl
      exact absurd h (by decide)
    have hvalue : ∀ d, takeAll d (some (.input, none)) [path] = assign d .input (some path) := by
      intro d
      rw [takeAll_cons_eq hpath, take_plain h]
      rfl
    rw [takeAll_cons_eq hne, take_input hname]
    cases flush d pending with
    | error e => rfl
    | ok d => exact hvalue d
  | @together name hname =>
    have hne : name ++ path ≠ "--" := by
      intro heq
      have hlast := congrArg (fun s => s.toList[2]?) heq
      rw [String.toList_append] at hlast
      rcases hname with rfl | rfl <;> exact absurd hlast (by simp)
    have hend : ∀ d, (((assign d .input (some path)).map fun d => (d, none)) >>= fun s =>
        takeAll s.1 s.2 []) = assign d .input (some path) := by
      intro d
      cases assign d .input (some path) <;> rfl
    rw [takeAll_cons_eq hne, take_input_value hname]
    cases flush d pending with
    | error e => rfl
    | ok d => exact hend d

/-- **What says where to read from does so, unless that has been said already.** -/
theorem parse_input (hplain : "--" ∉ args) (h : NamesInput path more) :
    parse (args ++ more) = parse args >>= fun o =>
      if o.input.isSome then .error .repeated else .ok { o with input := some path.toList } := by
  rw [parse, parse, takeAll_append hplain h.takeAll_eq]
  cases takeAll .empty none args with
  | error e => rfl
  | ok d =>
    show (assign d .input (some path)).map Draft.options =
      if d.options.input.isSome then .error .repeated
      else .ok { d.options with input := some path.toList }
    have hset : d.options.input.isSome = d.input.isSome := Option.isSome_map
    rw [assign, hset]
    split <;> rfl

end DBusTypes.Arguments
