import Petscii.Proofs.Host

/-!
# What a session does to a host

A session on a host with a state has an outcome and leaves a state, and neither depends on what has been logged.
Logging leaves the state as it is.
-/

namespace Petscii

namespace Session

variable {ε δ α β σ : Type}

/-- A session comes to an outcome and leaves a state, whatever has been logged before. -/
def Ends (x : Session (StateM σ) ε α) (s : σ) (outcome : Except ε α) (s' : σ) : Prop :=
  ∀ records, ∃ records', StateT.run (StateT.run (ExceptT.run x) records) s = ((outcome, records'), s')

/-- A session comes to an outcome and leaves the state as it is. -/
def Rests (x : Session (StateM σ) ε α) (s : σ) (outcome : Except ε α) : Prop :=
  Ends x s outcome s

section Ends

variable {x : Session (StateM σ) ε α} {f : α → Session (StateM σ) ε β} {s s' s'' : σ}

theorem Ends.bind {a : α} {outcome : Except ε β} (hx : Ends x s (.ok a) s') (hf : Ends (f a) s' outcome s'') :
    Ends (x >>= f) s outcome s'' := by
  intro records
  obtain ⟨records', hx⟩ := hx records
  obtain ⟨records'', hf⟩ := hf records'
  refine ⟨records'', ?_⟩
  rw [ExceptT.run_bind, StateT.run_bind, StateT.run_bind, hx]
  exact hf

theorem Ends.fail {e : ε} (hx : Ends x s (.error e) s') : Ends (x >>= f) s (.error e) s' := by
  intro records
  obtain ⟨records', hx⟩ := hx records
  refine ⟨records', ?_⟩
  rw [ExceptT.run_bind, StateT.run_bind, StateT.run_bind, hx]
  rfl

theorem Ends.map {outcome : Except ε α} (g : α → β) (hx : Ends x s outcome s') :
    Ends (x >>= fun a => pure (g a)) s (outcome.map g) s' := by
  cases outcome with
  | ok a => exact hx.bind fun records => ⟨records, rfl⟩
  | error e => exact hx.fail

theorem Ends.adapt {outcome : Except ε α} (g : ε → δ) (hx : Ends x s outcome s') :
    Ends (ExceptT.adapt g x) s (outcome.mapError g) s' := by
  intro records
  obtain ⟨records', hx⟩ := hx records
  refine ⟨records', ?_⟩
  change StateT.run (StateT.run (Except.mapError g <$> ExceptT.run x) records) s = _
  rw [StateT.run_map, StateT.run_map, hx]
  rfl

theorem Ends.run {outcome : Except ε α} (hx : Ends x s outcome s') :
    ∃ records, StateT.run (Session.run x) s = ((outcome, records), s') := by
  obtain ⟨records, hx⟩ := hx []
  refine ⟨records.reverse, ?_⟩
  rw [Session.run, StateT.run_bind, hx]
  rfl

end Ends

section Rests

variable {s : σ}

theorem rests_pure (a : α) : Rests (pure a : Session (StateM σ) ε α) s (.ok a) :=
  fun records => ⟨records, rfl⟩

theorem rests_throw (e : ε) : Rests (throw e : Session (StateM σ) ε α) s (.error e) :=
  fun records => ⟨records, rfl⟩

theorem rests_log (r : Log.Record) : Rests (log r : Session (StateM σ) ε Unit) s (.ok ()) :=
  fun records => ⟨r :: records, rfl⟩

theorem rests_ofExcept (g : δ → ε) (x : Except δ α) :
    Rests (ofExcept g x : Session (StateM σ) ε α) s (x.mapError g) := by
  cases x with
  | ok a => exact rests_pure a
  | error e => exact rests_throw (g e)

theorem Rests.map {x : Session (StateM σ) ε α} {f : α → Session (StateM σ) ε β} {outcome : Except ε α}
    {g : α → β} (hx : Rests x s outcome) (hf : ∀ a, Rests (f a) s (.ok (g a))) :
    Rests (x >>= f) s (outcome.map g) := by
  cases outcome with
  | ok a => exact Ends.bind hx (hf a)
  | error e => exact Ends.fail hx

theorem rests_forIn {l : List β} {body : β → PUnit → Session (StateM σ) ε (ForInStep PUnit)}
    (hbody : ∀ b, Rests (body b ⟨⟩) s (.ok (.yield ⟨⟩))) : Rests (forIn l ⟨⟩ body) s (.ok ⟨⟩) := by
  induction l with
  | nil => exact rests_pure _
  | cons b l ih =>
    rw [List.forIn_cons]
    exact Ends.bind (hbody b) ih

end Rests

section Host

variable [Host (StateM σ)] (s : σ)

theorem ends_readFile (path : String) :
    Ends (readFile path : Session (StateM σ) ε _) s (.ok (Host.act (Host.readFile path) s).1)
      (Host.act (Host.readFile path) s).2 :=
  fun records => ⟨records, rfl⟩

theorem ends_isInteractive :
    Ends (isInteractive : Session (StateM σ) ε _) s (.ok (Host.act Host.isInteractive s).1)
      (Host.act Host.isInteractive s).2 :=
  fun records => ⟨records, rfl⟩

theorem ends_readInput :
    Ends (readInput : Session (StateM σ) ε _) s (.ok (Host.act Host.readInput s).1)
      (Host.act Host.readInput s).2 :=
  fun records => ⟨records, rfl⟩

theorem ends_writeFile (path : String) (data : Bytes) :
    Ends (writeFile path data : Session (StateM σ) ε _) s (.ok (Host.act (Host.writeFile path data) s).1)
      (Host.act (Host.writeFile path data) s).2 :=
  fun records => ⟨records, rfl⟩

theorem ends_writeOutput (data : Bytes) :
    Ends (writeOutput data : Session (StateM σ) ε _) s (.ok (Host.act (Host.writeOutput data) s).1)
      (Host.act (Host.writeOutput data) s).2 :=
  fun records => ⟨records, rfl⟩

end Host

end Session

end Petscii
