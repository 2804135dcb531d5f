import DBusTypes.Command.Run
import DBusTypes.Proofs.Resolve

/-!
# What a run changes

Only the target of a run is written to, after everything has been read. Before that the way to it is
made: the file that is there is removed, if that is consented to, and missing directories are made. The
user is asked for consent at most once, so a run depends on one reply.

* `Command.inWorld` — an action in a world, which gives a result and another world
* `World.Extended` — a world with more directories
* `Command.consent` — whether a file may be overwritten
* `Command.Cleared` — **what making way for a file does to a disk**
* `Command.inWorld_collect` — which texts are read, and that no file is touched before
* `Command.runIn_cases`, `Command.runIn_disk_cases` — **what a run comes to**, and what it does to the
  disk
-/

namespace DBusTypes

/-! ## Actions in a world -/

/-- A world together with a user who replies to whatever is asked. -/
abbrev Attended := ReaderT Reply (StateM World)

namespace Command

variable {α β : Type}

variable {reply : Reply}

/-- What an action gives in a world whose user replies so, and the world after it. -/
def inWorld (reply : Reply) (x : ExceptT Failure Attended α) (w : World) : Except Failure α × World :=
  (x.run.run reply).run w

theorem inWorld_pure (a : α) (w : World) : inWorld reply (pure a) w = (.ok a, w) := rfl

theorem inWorld_throw (f : Failure) (w : World) :
    inWorld reply (throw f : ExceptT Failure Attended α) w = (.error f, w) := rfl

theorem inWorld_lift (x : Attended α) (w : World) :
    inWorld reply (liftM x) w = (.ok ((x.run reply).run w).1, ((x.run reply).run w).2) := rfl

theorem inWorld_ofExcept (x : Except Failure α) (w : World) :
    inWorld reply (MonadExcept.ofExcept x : ExceptT Failure Attended α) w = (x, w) := by
  cases x <;> rfl

/-- What follows an action is done in the world after it, if the action succeeds. -/
theorem inWorld_bind (x : ExceptT Failure Attended α) (f : α → ExceptT Failure Attended β)
    (w : World) :
    inWorld reply (x >>= f) w = match inWorld reply x w with
      | (.ok a, w') => inWorld reply (f a) w'
      | (.error e, w') => (.error e, w') := by
  simp only [inWorld, ExceptT.run_bind, ReaderT.run_bind, StateT.run_bind]
  cases (x.run.run reply).run w with
  | mk r w' => cases r <;> rfl

end Command

/-! ## Making directories -/

/-- Whether a world is as it was but for directories that were made. -/
structure World.Extended (w w' : World) : Prop where
  disk : w.disk.Grown w'.disk
  input : w'.input = w.input
  output : w'.output = w.output

namespace World

variable {w w' w'' : World}

theorem Extended.refl (w : World) : w.Extended w := ⟨.refl w.disk, rfl, rfl⟩

theorem Extended.trans (h : w.Extended w') (h' : w'.Extended w'') : w.Extended w'' :=
  ⟨h.disk.trans h'.disk, h'.input.trans h.input, h'.output.trans h.output⟩

end World

namespace Host

variable {α : Type}

/-- Directories are made alike whether or not there is a user, as nothing is asked. -/
theorem run_makeChain {m : Type → Type} [Monad m] [Host m] (reply : Reply) (ps : List Path) :
    (makeChain (m := ReaderT Reply m) ps).run reply = makeChain ps := by
  induction ps with
  | nil => rfl
  | cons p above ih =>
    rw [makeChain, makeChain]
    split
    · rfl
    · rw [ReaderT.run_bind]
      refine bind_congr fun making => ?_
      cases making with
      | made | refused => rfl
      | parentMissing =>
        dsimp only
        rw [ReaderT.run_bind, ih]
        refine bind_congr fun ready => ?_
        cases ready with
        | false => rfl
        | true =>
          rw [if_pos rfl, if_pos rfl, ReaderT.run_bind]
          refine bind_congr fun making => ?_
          cases making <;> rfl

/-- Whether a program only makes directories. -/
def Builds (x : StateM World α) : Prop := ∀ w : World, w.Extended (x.run w).2

theorem builds_makeDirectory (p : Path) : Builds (makeDirectory p) := fun w =>
  ⟨Disk.grown_makeDirectory w.disk p, rfl, rfl⟩

/-- Making directories one in the other comes to making single ones, one after the other. -/
theorem makeChain_induction {R : World → World → Prop} (hrefl : ∀ w, R w w)
    (htrans : ∀ u v w, R u v → R v w → R u w) (ps : List Path)
    (hmake : ∀ p ∈ ps, ∀ w : World, R w ((makeDirectory (m := StateM World) p).run w).2) (w : World) :
    R w ((makeChain (m := StateM World) ps).run w).2 := by
  induction ps generalizing w with
  | nil => exact hrefl w
  | cons p above ih =>
    have habove := ih fun q hq => hmake q (List.mem_cons_of_mem p hq)
    have hp := hmake p List.mem_cons_self
    rw [makeChain]
    split
    · exact hrefl w
    · have hfirst := hp w
      rw [StateT.run_bind]
      rcases hone : (makeDirectory (m := StateM World) p).run w with ⟨result, w₁⟩
      rw [hone] at hfirst
      cases result with
      | made => exact hfirst
      | refused => exact hfirst
      | parentMissing =>
        -- The directories above are made, and then it is tried once more.
        have hsecond := htrans _ _ _ hfirst (habove w₁)
        show R w (StateT.run (makeChain (m := StateM World) above >>= _) w₁).2
        rw [StateT.run_bind]
        rcases hall : (makeChain (m := StateM World) above).run w₁ with ⟨ready, w₂⟩
        rw [hall] at hsecond
        cases ready with
        | false => exact hsecond
        | true =>
          have hthird := htrans _ _ _ hsecond (hp w₂)
          show R w (StateT.run (makeDirectory (m := StateM World) p >>= _) w₂).2
          rw [StateT.run_bind]
          rcases hagain : (makeDirectory (m := StateM World) p).run w₂ with ⟨result, w₃⟩
          rw [hagain] at hthird
          cases result <;> exact hthird

/-- Making directories one in the other does nothing else. -/
theorem builds_makeChain (ps : List Path) : Builds (makeChain ps) :=
  makeChain_induction .refl (fun _ _ _ h h' => h.trans h') ps fun p _ => builds_makeDirectory p

end Host

namespace Command

variable {reply : Reply}

/-! ## Operations -/

variable {path : Path} {w : World}

theorem inWorld_isDirectory :
    inWorld reply (liftM (Host.isDirectory path : Attended Bool)) w =
      (.ok (w.disk.isDirectory path), w) := rfl

theorem inWorld_pathExists :
    inWorld reply (liftM (Host.pathExists path : Attended Bool)) w =
      (.ok (w.disk.pathExists path), w) := rfl

theorem inWorld_removeFile :
    inWorld reply (liftM (Host.removeFile path : Attended Bool)) w =
      (.ok (w.disk.removeFile path).2, { w with disk := (w.disk.removeFile path).1 }) := rfl

theorem inWorld_writeFile {b : Bytes} :
    inWorld reply (liftM (Host.writeFile path b : Attended Bool)) w =
      (.ok (w.disk.writeFile path b).2, { w with disk := (w.disk.writeFile path b).1 }) := rfl

theorem inWorld_confirm {question : String} :
    inWorld reply (liftM (Host.confirm question : Attended Reply)) w = (.ok reply, w) := rfl

theorem inWorld_makeDirectories :
    inWorld reply (liftM (Host.makeDirectories path : Attended Bool)) w =
      (.ok ((Host.makeDirectories (m := StateM World) path).run w).1,
        ((Host.makeDirectories (m := StateM World) path).run w).2) := by
  rw [inWorld_lift, Host.makeDirectories, Host.makeDirectories, Host.run_makeChain]

/-! ## Making way -/

/-- Directories are made where the path has a parent that is not there. -/
theorem inWorld_makeParents (path : Path) (w : World) :
    inWorld reply (makeParents path) w =
      match path.parent? with
      | none => (.ok (), w)
      | some parent =>
        if parent.isEmpty || w.disk.pathExists parent then (.ok (), w)
        else
          (if ((Host.makeDirectories (m := StateM World) parent).run w).1 then .ok ()
            else .error (.directoryNotMade parent),
            ((Host.makeDirectories (m := StateM World) parent).run w).2) := by
  unfold makeParents
  cases path.parent? with
  | none => rfl
  | some parent =>
    dsimp only
    cases parent.isEmpty with
    | true => rfl
    | false =>
      rw [if_neg Bool.false_ne_true, inWorld_bind, inWorld_pathExists]
      dsimp only
      cases w.disk.pathExists parent with
      | true => rfl
      | false =>
        rw [if_neg Bool.false_ne_true, if_neg (show ¬(false || false) = true by decide),
          inWorld_bind, inWorld_makeDirectories]
        dsimp only
        split
        · rfl
        · rfl

/-- Making the directories that lead to a file does nothing else. -/
theorem extended_makeParents (reply : Reply) (path : Path) (w : World) :
    w.Extended (inWorld reply (makeParents path) w).2 := by
  rw [inWorld_makeParents]
  split
  · exact .refl w
  · next parent _ =>
    split
    · exact .refl w
    · exact Host.builds_makeChain parent.ancestors w

/-- Whether a file may be overwritten: with consent given in advance, or else as the user replies. -/
def consent (overwrite : Bool) (reply : Reply) : Except Failure Unit :=
  if overwrite then .ok () else heed reply

theorem consent_eq_ok_iff {overwrite : Bool} :
    consent overwrite reply = .ok () ↔ overwrite = true ∨ reply = .yes := by
  cases overwrite <;> cases reply <;> simp [consent, heed]

/-- The order in which making way for a file looks at what is there. -/
theorem inWorld_clear (path : Path) (overwrite : Bool) (w : World) :
    inWorld reply (clear path overwrite) w =
      if w.disk.isDirectory path then (.error (.targetIsDirectory path), w)
      else if w.disk.pathExists path then
        match consent overwrite reply with
        | .error f => (.error f, w)
        | .ok () =>
          if (w.disk.removeFile path).2 then
            inWorld reply (makeParents path) { w with disk := (w.disk.removeFile path).1 }
          else (.error (.targetNotRemoved path), { w with disk := (w.disk.removeFile path).1 })
      else inWorld reply (makeParents path) w := by
  unfold clear
  rw [inWorld_bind, inWorld_isDirectory]
  dsimp only
  by_cases hdir : w.disk.isDirectory path = true
  · rw [if_pos hdir, if_pos hdir, inWorld_bind, inWorld_throw]
  rw [if_neg hdir, if_neg hdir, inWorld_bind, inWorld_pathExists]
  dsimp only
  by_cases hex : w.disk.pathExists path = true
  swap
  · rw [if_neg hex, if_neg hex]
  rw [if_pos hex, if_pos hex]
  -- With consent, what is left of both sides is the same.
  have hrest : inWorld reply (do
      unless ← (Host.removeFile path : Attended Bool) do throw (.targetNotRemoved path)
      makeParents path) w = if (w.disk.removeFile path).2 then
        inWorld reply (makeParents path) { w with disk := (w.disk.removeFile path).1 }
      else (.error (.targetNotRemoved path), { w with disk := (w.disk.removeFile path).1 }) := by
    rw [inWorld_bind, inWorld_removeFile]
    dsimp only
    by_cases hrem : (w.disk.removeFile path).2 = true
    · rw [if_pos hrem, if_pos hrem]
    · rw [if_neg hrem, if_neg hrem, inWorld_bind, inWorld_throw]
  cases overwrite with
  | true => exact hrest
  | false =>
    rw [if_neg Bool.false_ne_true, inWorld_bind, inWorld_confirm]
    dsimp only
    rw [inWorld_bind, inWorld_ofExcept]
    show _ = match heed reply with
      | .error f => _
      | .ok () => _
    cases heed reply with
    | error f => rfl
    | ok u => exact hrest

/-- What making way for a file at a path does to a disk, where the user replies so. -/
inductive Cleared (reply : Reply) (path : Path) (overwrite : Bool) (d d' : Disk) : Prop
  /-- Nothing was there: directories may have been made. -/
  | missing (h : d.pathExists path = false) (hg : d.Grown d')
  /-- A file was there, and was removed with consent. -/
  | removed {l : Location} {b : Bytes} (h : overwrite = true ∨ reply = .yes)
      (hl : d.find path = .ok l) (hb : d.node? l = some (.file b)) (hg : (d.remove l).Grown d')

/-- **Where a file was, the report is written**, once way is made for it. -/
theorem Cleared.place_of_find {path : Path} {overwrite : Bool} {d d' : Disk} {l : Location}
    (ht : d.IsTree) (hc : Cleared reply path overwrite d d') (hfind : d.find path = .ok l) :
    d'.place path = .ok (some l) := by
  cases hc with
  | missing hmissing _ =>
    rw [Disk.pathExists, hfind] at hmissing
    exact absurd hmissing (by simp)
  | @removed k b _ hk hfile hg =>
    obtain rfl : k = l := Except.ok.inj (hk.symm.trans hfind)
    have hhere : d'.here = d.here := hg.here
    refine Disk.place_mono hhere ?_ (Disk.place_of_find ht hfind hfile)
    intro j hj
    have hjk : j ≠ k := by
      rintro rfl
      rw [hfile] at hj
      exact absurd hj (by simp)
    refine hg.keeps j _ ?_
    rw [Disk.node?_remove hjk]
    exact hj

/-- **Making way for a file**, either nothing is done or what has to be. -/
theorem clear_cases (reply : Reply) (path : Path) (overwrite : Bool) (w : World) :
    (∃ f, inWorld reply (clear path overwrite) w = (.error f, w)) ∨
      Cleared reply path overwrite w.disk (inWorld reply (clear path overwrite) w).2.disk ∧
        (inWorld reply (clear path overwrite) w).2.input = w.input ∧
        (inWorld reply (clear path overwrite) w).2.output = w.output := by
  rw [inWorld_clear]
  split
  · exact Or.inl ⟨_, rfl⟩
  split
  · split
    · exact Or.inl ⟨_, rfl⟩
    · next hconsent =>
      rcases w.disk.removeFile_cases path with hno | ⟨l, b, hl, hb, hrem⟩
      · rw [hno]
        exact Or.inl ⟨_, rfl⟩
      · rw [hrem, if_pos rfl]
        have h := extended_makeParents reply path { w with disk := w.disk.remove l }
        exact Or.inr ⟨.removed (consent_eq_ok_iff.mp hconsent) hl hb h.disk, h.input, h.output⟩
  · next hno =>
    have h := extended_makeParents reply path w
    exact Or.inr ⟨.missing (by simpa using hno) h.disk, h.input, h.output⟩

/-! ## Reading -/

/-- What is read from a path. -/
def source (w : World) (path : Path) : Reading :=
  if path = ['-'] then .content w.input
  else
    match w.disk.read? path with
    | some (.file b) => .content b
    | some .directory => .unreadable
    | none => .notOpened

/-- The world once a path was read: of standard input nothing is left. -/
def afterReading (w : World) (path : Path) : World :=
  if path = ['-'] then { w with input := [] } else w

theorem inWorld_readFrom (path : Path) (w : World) :
    inWorld reply (readFrom path) w = (interpret path (source w path), afterReading w path) := by
  unfold readFrom source afterReading
  dsimp only
  by_cases hpath : path = ['-']
  · rw [if_pos hpath, if_pos hpath, if_pos hpath, inWorld_bind, inWorld_bind, inWorld_lift]
    exact inWorld_ofExcept (interpret path (.content w.input)) { w with input := [] }
  · rw [if_neg hpath, if_neg hpath, if_neg hpath, inWorld_bind, inWorld_lift]
    exact inWorld_ofExcept _ w

/-- The texts that a run reads, beside those among its arguments. -/
def more (o : Options) (w : World) : Except Failure (List String) :=
  match o.input with
  | some path => interpret path (source w path)
  | none => .ok []

/-- The texts that a run checks. -/
def gather (o : Options) (w : World) : Except Failure (List String) :=
  match more o w with
  | .ok texts =>
    if (o.signatures ++ texts).isEmpty then .error .noSignatures else .ok (o.signatures ++ texts)
  | .error f => .error f

/-- The world once the texts of a run are read. -/
def afterGathering (o : Options) (w : World) : World := o.input.elim w (afterReading w)

theorem inWorld_collect (o : Options) (w : World) :
    inWorld reply (collect o) w = (gather o w, afterGathering o w) := by
  unfold collect gather more afterGathering
  dsimp only
  cases o.input with
  | none =>
    dsimp only
    rw [inWorld_bind, inWorld_pure]
    dsimp only
    split <;> rfl
  | some path =>
    dsimp only
    rw [inWorld_bind, inWorld_readFrom]
    cases interpret path (source w path) with
    | error f => rfl
    | ok texts =>
      dsimp only
      split <;> rfl

/-- A run in a world whose user replies so: how it ends, and the world after it. -/
def runIn (reply : Reply) (args : List String) (w : World) : Outcome × World :=
  ((run (m := Attended) args).run reply).run w

theorem inWorld_deliver_none {o : Options} (h : o.target = none) (report : Bytes) (w : World) :
    inWorld reply (deliver o report) w = (.ok (), { w with output := w.output ++ report }) := by
  unfold deliver
  rw [h]
  rfl

/-- A report for a file is written once way is made for it. -/
theorem inWorld_deliver_some {o : Options} {path : Path} (h : o.target = some path) (report : Bytes)
    (w : World) :
    inWorld reply (deliver o report) w =
      match inWorld reply (clear path o.overwrite) w with
      | (.error f, w') => (.error f, w')
      | (.ok _, w') =>
        (if (w'.disk.writeFile path report).2 then .ok () else .error (.targetNotMade path),
          { w' with disk := (w'.disk.writeFile path report).1 }) := by
  unfold deliver
  rw [h]
  dsimp only
  rw [inWorld_bind]
  rcases inWorld reply (clear path o.overwrite) w with ⟨f | u, w'⟩
  · rfl
  · dsimp only
    rw [inWorld_bind, inWorld_writeFile]
    dsimp only
    split
    · rfl
    · rfl

/-- Delivering a report, either the disk stays as it is, or way is made and then at most the report
written. -/
theorem deliver_disk_cases (reply : Reply) (o : Options) (report : Bytes) (w : World) :
    (inWorld reply (deliver o report) w).2.disk = w.disk ∨
      ∃ path d', o.target = some path ∧ Cleared reply path o.overwrite w.disk d' ∧
        ((inWorld reply (deliver o report) w).2.disk = d' ∨
          (inWorld reply (deliver o report) w).2.disk = (d'.writeFile path report).1) := by
  cases htarget : o.target with
  | none =>
    rw [inWorld_deliver_none htarget]
    exact Or.inl rfl
  | some path =>
    rw [inWorld_deliver_some htarget]
    rcases clear_cases reply path o.overwrite w with ⟨f, hclear⟩ | ⟨hcleared, -, -⟩
    · rw [hclear]
      exact Or.inl rfl
    · refine Or.inr ⟨path, _, rfl, hcleared, ?_⟩
      rcases inWorld reply (clear path o.overwrite) w with ⟨f | u, w'⟩
      · exact Or.inl rfl
      · exact Or.inr rfl

theorem inWorld_execute (o : Options) (w : World) :
    inWorld reply (execute o) w =
      match gather o w with
      | .error f => (.error f, afterGathering o w)
      | .ok texts =>
        match inWorld reply (deliver o (Report.records o texts)) (afterGathering o w) with
        | (.ok _, w') => (.ok (Report.allValid o texts), w')
        | (.error f, w') => (.error f, w') := by
  unfold execute
  rw [inWorld_bind, inWorld_collect]
  cases gather o w with
  | error f => rfl
  | ok texts =>
    have hreport : (Report.draft o texts).output.toList = Report.records o texts := rfl
    dsimp only
    rw [inWorld_bind, hreport]
    rcases inWorld reply (deliver o (Report.records o texts)) (afterGathering o w) with ⟨f | u, w'⟩
    · rfl
    · rfl

theorem runIn_eq (args : List String) (w : World) :
    runIn reply args w =
      match Arguments.parse args with
      | .error e => (.usage e, w)
      | .ok o =>
        match inWorld reply (execute o) w with
        | (.ok allValid, w') => (.finished allValid, w')
        | (.error f, w') => (.failed f, w') := by
  unfold runIn run
  cases Arguments.parse args with
  | error e => rfl
  | ok o =>
    have hrun : ((execute (m := Attended) o).run.run reply).run w = inWorld reply (execute o) w := rfl
    dsimp only
    rw [ReaderT.run_bind, StateT.run_bind, hrun]
    rcases inWorld reply (execute o) w with ⟨f | allValid, w'⟩
    · rfl
    · rfl

/-- A run whose arguments set no options does nothing. -/
theorem runIn_of_usage {args : List String} {w : World} {e : UsageError}
    (hparse : Arguments.parse args = .error e) : runIn reply args w = (.usage e, w) := by
  rw [runIn_eq, hparse]

/-- A run that cannot gather its texts ends there. -/
theorem runIn_of_gather_error (reply : Reply) {args : List String} {o : Options} {w : World}
    {f : Failure} (hparse : Arguments.parse args = .ok o) (hgather : gather o w = .error f) :
    runIn reply args w = (.failed f, afterGathering o w) := by
  rw [runIn_eq, hparse]
  dsimp only
  rw [inWorld_execute, hgather]

/-- Reading takes from standard input only. -/
theorem afterGathering_eq (o : Options) (w : World) :
    afterGathering o w = { w with input := (afterGathering o w).input } := by
  unfold afterGathering
  cases o.input with
  | none => rfl
  | some path =>
    rw [Option.elim_some]
    unfold afterReading
    split <;> rfl

theorem disk_afterGathering (o : Options) (w : World) : (afterGathering o w).disk = w.disk := by
  rw [afterGathering_eq]

theorem output_afterGathering (o : Options) (w : World) : (afterGathering o w).output = w.output := by
  rw [afterGathering_eq]

/-- **What a run comes to.** It ends before anything is delivered, or it delivers the records of the
texts that it gathers, and says of them whether all are valid. -/
theorem runIn_cases (reply : Reply) (args : List String) (w : World) :
    ((∀ allValid, (runIn reply args w).1 ≠ .finished allValid) ∧
        (runIn reply args w).2.disk = w.disk) ∨
      ∃ o texts result w', Arguments.parse args = .ok o ∧ gather o w = .ok texts ∧
        inWorld reply (deliver o (Report.records o texts)) (afterGathering o w) = (result, w') ∧
        runIn reply args w = (match result with
          | .ok () => .finished (Report.allValid o texts)
          | .error f => .failed f, w') := by
  rw [runIn_eq]
  cases hparse : Arguments.parse args with
  | error e => exact Or.inl ⟨by simp, rfl⟩
  | ok o =>
    dsimp only
    rw [inWorld_execute]
    cases hgather : gather o w with
    | error f => exact Or.inl ⟨by simp, disk_afterGathering o w⟩
    | ok texts =>
      dsimp only
      rcases hdeliver : inWorld reply (deliver o (Report.records o texts)) (afterGathering o w) with
        ⟨f | u, w'⟩
      · exact Or.inr ⟨o, texts, .error f, w', rfl, hgather, hdeliver, rfl⟩
      · exact Or.inr ⟨o, texts, .ok (), w', rfl, hgather, hdeliver, rfl⟩

/-- **What a run does to the disk**: nothing, or it makes way for its target and then at most writes
to it. -/
theorem runIn_disk_cases (reply : Reply) (args : List String) (w : World) :
    (runIn reply args w).2.disk = w.disk ∨
      ∃ o path d', Arguments.parse args = .ok o ∧ o.target = some path ∧
        Cleared reply path o.overwrite w.disk d' ∧
        ((runIn reply args w).2.disk = d' ∨
          ∃ report, (runIn reply args w).2.disk = (d'.writeFile path report).1) := by
  rcases runIn_cases reply args w with ⟨-, hdisk⟩ | ⟨o, texts, result, w', hparse, -, hdeliver, hrun⟩
  · exact Or.inl hdisk
  · have hcases := deliver_disk_cases reply o (Report.records o texts) (afterGathering o w)
    rw [hdeliver, disk_afterGathering] at hcases
    rw [hrun]
    rcases hcases with hsame | ⟨path, d', htarget, hcleared, hafter⟩
    · exact Or.inl hsame
    · refine Or.inr ⟨o, path, d', hparse, htarget, hcleared, ?_⟩
      rcases hafter with hafter | hafter
      · exact Or.inl hafter
      · exact Or.inr ⟨_, hafter⟩

end Command

end DBusTypes
