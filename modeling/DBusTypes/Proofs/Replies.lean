import DBusTypes.Proofs.Effects

/-!
# What the user replies

A run may ask its user one question: whether the file that is at its target may be overwritten. The
reply enters the run through `Command.consent` alone, as consent that is given in advance does.

1. To fix the reply beforehand is to run in surroundings that reply so. A world by itself is one where
   nobody can be asked.
2. Runs that have the same consent are the same. So to say yes when asked is to have consented in
   advance, and after consent in advance the reply counts for nothing.
3. Where there is no file at the target, nothing is asked. Where there is one, and no consent, the run
   ends there.

* `Command.run_settled`, `Command.runIn_unasked` — **a run with a fixed reply, and one without a user**
* `Command.runIn_congr`, `Command.runIn_yes` — **a reply is consent, and nothing else**
* `Command.runIn_refused`, `Command.runIn_free` — when a reply ends a run, and when it is not asked for
-/

namespace DBusTypes.Command

/-! ## Surroundings that reply -/

section

variable {m : Type → Type} [Monad m] {α β : Type} {reply : Reply}

/-- Whether an action with a fixed reply is an action of the surroundings. -/
def Settled (reply : Reply) (x : ExceptT Failure (ReaderT Reply m) α) (y : ExceptT Failure m α) :
    Prop := x.run.run reply = y.run

theorem settled_ofExcept (x : Except Failure α) :
    Settled (m := m) reply (MonadExcept.ofExcept x) (MonadExcept.ofExcept x) := by
  cases x <;> rfl

theorem Settled.lift {x : ReaderT Reply m α} {y : m α} (h : x.run reply = y) :
    Settled reply (liftM x : ExceptT Failure (ReaderT Reply m) α) (liftM y) := by
  rw [← h]
  rfl

theorem Settled.bind {x : ExceptT Failure (ReaderT Reply m) α} {y : ExceptT Failure m α}
    {f : α → ExceptT Failure (ReaderT Reply m) β} {g : α → ExceptT Failure m β}
    (hx : Settled reply x y) (hf : ∀ a, Settled reply (f a) (g a)) :
    Settled reply (x >>= f) (y >>= g) := by
  unfold Settled at hx ⊢
  rw [ExceptT.run_bind, ExceptT.run_bind, ReaderT.run_bind, hx]
  refine bind_congr fun r => ?_
  cases r with
  | ok a => exact hf a
  | error f => rfl

/-- Behind a failure nothing is done. -/
theorem settled_throw_bind [LawfulMonad m] (e : Failure) (f : α → ExceptT Failure (ReaderT Reply m) β)
    (g : α → ExceptT Failure m β) : Settled reply (throw e >>= f) (throw e >>= g) := by
  simp [Settled]

variable [Host m]

theorem settled_readFrom (path : Path) :
    Settled (m := m) reply (readFrom path) (readFrom path) := by
  unfold readFrom
  dsimp only
  split
  · exact .bind (.bind rfl fun b => rfl) fun reading => settled_ofExcept (m := m) _
  · exact .bind rfl fun reading => settled_ofExcept (m := m) _

theorem settled_collect [LawfulMonad m] (o : Options) :
    Settled (m := m) reply (collect o) (collect o) := by
  unfold collect
  dsimp only
  split
  · refine .bind (settled_readFrom _) fun more => ?_
    split
    · exact settled_throw_bind _ _ _
    · rfl
  · refine .bind rfl fun more => ?_
    split
    · exact settled_throw_bind _ _ _
    · rfl

theorem settled_makeParents (path : Path) :
    Settled (m := m) reply (makeParents path) (makeParents path) := by
  unfold makeParents
  split
  · rfl
  split
  · rfl
  refine .bind rfl fun found => ?_
  split
  · rfl
  refine .bind (.lift (Host.run_makeChain reply _)) fun made => ?_
  split
  · rfl
  · rfl

variable [LawfulMonad m]

/-- Where the user is asked, the surroundings give the reply that is fixed. -/
theorem settled_clear (h : ∀ question, (Host.confirm question : m Reply) = pure reply) (path : Path)
    (overwrite : Bool) :
    Settled (m := m) reply (clear path overwrite) (clear path overwrite) := by
  -- What is done once there is consent.
  have hremove : Settled (m := m) reply
      (do
        unless ← Host.removeFile (m := ReaderT Reply m) path do throw (.targetNotRemoved path)
        makeParents path)
      (do
        unless ← Host.removeFile (m := m) path do throw (.targetNotRemoved path)
        makeParents path) := by
    refine .bind rfl fun removed => ?_
    cases removed with
    | false => exact settled_throw_bind _ _ _
    | true => exact settled_makeParents path
  unfold clear
  refine .bind rfl fun isDirectory => ?_
  cases isDirectory with
  | true => exact settled_throw_bind _ _ _
  | false =>
    refine .bind rfl fun found => ?_
    cases found with
    | false => exact settled_makeParents path
    | true =>
      cases overwrite with
      | true => exact hremove
      | false =>
        refine .bind (.lift (h _).symm) fun answer => ?_
        exact .bind (settled_ofExcept (m := m) _) fun _ => hremove

theorem settled_deliver (h : ∀ question, (Host.confirm question : m Reply) = pure reply) (o : Options)
    (report : Bytes) : Settled (m := m) reply (deliver o report) (deliver o report) := by
  unfold deliver
  cases o.target with
  | none => rfl
  | some path =>
    refine .bind (settled_clear h path o.overwrite) fun _ => ?_
    refine .bind rfl fun made => ?_
    cases made with
    | false => rfl
    | true => rfl

/-- **To fix the reply is to run in surroundings that give it.** -/
theorem run_settled (h : ∀ question, (Host.confirm question : m Reply) = pure reply)
    (args : List String) : (run (m := ReaderT Reply m) args).run reply = run args := by
  unfold run
  cases Arguments.parse args with
  | error e => rfl
  | ok o =>
    have hexecute : Settled (m := m) reply (execute o) (execute o) := by
      refine .bind (settled_collect o) fun texts => ?_
      exact .bind (settled_deliver h o _) fun _ => rfl
    dsimp only
    rw [ReaderT.run_bind, hexecute]
    refine bind_congr fun r => ?_
    cases r with
    | ok allValid => rfl
    | error f => rfl

end

/-- **A world by itself is one where nobody can be asked.** -/
theorem runIn_unasked (args : List String) (w : World) :
    runIn .unasked args w = (run (m := StateM World) args).run w := by
  have hrun := run_settled (m := StateM World) (fun _ => rfl) args
  rw [runIn, hrun]

/-! ## Consent -/

variable {reply reply' : Reply} {args args' texts : List String} {o : Options} {path : Path}
  {w : World} {overwrite overwrite' : Bool} {f : Failure}

/-- Way is made alike under the same consent. -/
theorem inWorld_clear_congr (h : consent overwrite reply = consent overwrite' reply') :
    inWorld reply (clear path overwrite) w = inWorld reply' (clear path overwrite') w := by
  rw [inWorld_clear, inWorld_clear, h]
  simp only [inWorld_makeParents]

/-- A report is delivered alike where way is made alike. -/
theorem inWorld_deliver_congr
    (h : ∀ path, o.target = some path →
      inWorld reply (clear path o.overwrite) w = inWorld reply' (clear path overwrite') w)
    (report : Bytes) :
    inWorld reply (deliver o report) w =
      inWorld reply' (deliver { o with overwrite := overwrite' } report) w := by
  let o' : Options := { o with overwrite := overwrite' }
  show _ = inWorld reply' (deliver o' report) w
  cases htarget : o.target with
  | none =>
    have htarget' : o'.target = none := htarget
    rw [inWorld_deliver_none htarget, inWorld_deliver_none htarget']
  | some path =>
    have htarget' : o'.target = some path := htarget
    rw [inWorld_deliver_some htarget, inWorld_deliver_some htarget', h path htarget]

/-- Runs that make way for their target alike are the same. -/
theorem runIn_eq_of_clear (hparse : Arguments.parse args = .ok o)
    (hparse' : Arguments.parse args' = .ok { o with overwrite := overwrite' })
    (h : ∀ path, o.target = some path → inWorld reply (clear path o.overwrite) (afterGathering o w) =
      inWorld reply' (clear path overwrite') (afterGathering o w)) :
    runIn reply args w = runIn reply' args' w := by
  let o' : Options := { o with overwrite := overwrite' }
  have hexecute : inWorld reply (execute o) w = inWorld reply' (execute o') w := by
    have hgather : gather o' w = gather o w := rfl
    have hafter : afterGathering o' w = afterGathering o w := rfl
    rw [inWorld_execute, inWorld_execute, hgather, hafter]
    cases gather o w with
    | error f => rfl
    | ok texts =>
      have hreport : Report.records o' texts = Report.records o texts := rfl
      have hvalid : Report.allValid o' texts = Report.allValid o texts := rfl
      dsimp only
      rw [inWorld_deliver_congr h, hreport, hvalid]
  rw [runIn_eq, runIn_eq, hparse, hparse']
  dsimp only
  rw [hexecute]

/-- **Runs with the same consent are the same**, whether it is given in advance or when asked. -/
theorem runIn_congr (hparse : Arguments.parse args = .ok o)
    (hparse' : Arguments.parse args' = .ok { o with overwrite := overwrite' })
    (h : consent o.overwrite reply = consent overwrite' reply') :
    runIn reply args w = runIn reply' args' w :=
  runIn_eq_of_clear hparse hparse' fun _ _ => inWorld_clear_congr h

/-- **To say yes when asked is to have consented in advance.** -/
theorem runIn_yes (hparse : Arguments.parse args = .ok o)
    (hparse' : Arguments.parse args' = .ok { o with overwrite := true }) :
    runIn .yes args w = runIn reply args' w := by
  refine runIn_congr hparse hparse' ?_
  rw [consent_eq_ok_iff.mpr (Or.inr rfl), consent_eq_ok_iff.mpr (Or.inl rfl)]

/-- **Without consent a run ends where a file is at its target**, before anything is changed. -/
theorem runIn_refused (hparse : Arguments.parse args = .ok o) (htarget : o.target = some path)
    (hgather : gather o w = .ok texts) (hfile : w.disk.isDirectory path = false)
    (hexists : w.disk.pathExists path = true) (h : consent o.overwrite reply = .error f) :
    runIn reply args w = (.failed f, afterGathering o w) := by
  have hclear : inWorld reply (clear path o.overwrite) (afterGathering o w) =
      (.error f, afterGathering o w) := by
    rw [inWorld_clear, disk_afterGathering, hfile, hexists, h, if_neg Bool.false_ne_true, if_pos rfl]
  rw [runIn_eq, hparse]
  dsimp only
  rw [inWorld_execute, hgather]
  dsimp only
  rw [inWorld_deliver_some htarget, hclear]

example :
    let w : World := ⟨⟨[(["out".toList], .file (utf8 "s"))], []⟩, [], []⟩
    runIn .no ["-f", "out", "i"] w = (.failed .cancelled, w) := by rfl

/-- Where there is nothing at the target, or a directory, the reply counts for nothing. -/
theorem runIn_free (hparse : Arguments.parse args = .ok o)
    (h : ∀ path, o.target = some path →
      w.disk.isDirectory path = true ∨ w.disk.pathExists path = false) :
    runIn reply args w = runIn reply' args w := by
  refine runIn_eq_of_clear hparse hparse fun path htarget => ?_
  rw [inWorld_clear, inWorld_clear, disk_afterGathering]
  rcases h path htarget with hdirectory | hmissing
  · rw [if_pos hdirectory, if_pos hdirectory]
  · simp only [hmissing, Bool.false_eq_true, if_false, inWorld_makeParents]

end DBusTypes.Command
