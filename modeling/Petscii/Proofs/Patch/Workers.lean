import Mathlib.Data.List.Forall2
import Mathlib.Data.List.Perm.Subperm
import Petscii.Proofs.Patch.Transitions

/-!
# Comparing frames by workers

The comparisons of a script do not depend on each other, so they can be given to workers. They are handed out in
the order of the transitions, to a limited number of workers at a time. A worker puts the rows that it finds where
those of its transition belong, or leaves its failure if no failure has been left before. Once all comparisons are
complete the script is written from the rows, in order.

The workers are described by the steps that they may take in any order. What every step keeps is that a completed
comparison has left what comparing its transition gives. So whatever the order was, a script is the same as without
workers, and there is none exactly if some comparison fails.
-/

namespace Petscii.Patch

/-! ### Workers -/

/-- Comparisons on their way: how many have been handed out, which of these have not been completed, the rows of
each transition, which are empty at first, and the failure that was left first. -/
structure Pool where
  launched : Nat
  running : List Nat
  rows : List (List (Option Columns))
  failure : Option Error

/-- What can happen next: a comparison is handed out, or one of those that are running is completed. -/
inductive Event where
  | launch
  | complete (k : Nat)
  deriving DecidableEq, Repr

namespace Pool

def initial (count : Nat) : Pool :=
  ⟨0, [], List.replicate count [], none⟩

def settle (p : Pool) (k : Nat) : Except Error Change → Pool
  | .ok c => { p with running := p.running.erase k, rows := p.rows.set k c.rows }
  | .error e => { p with running := p.running.erase k, failure := p.failure.or (some e) }

def Done (count : Nat) (p : Pool) : Prop :=
  p.launched = count ∧ p.running = []

instance (count : Nat) (p : Pool) : Decidable (p.Done count) :=
  inferInstanceAs (Decidable (_ ∧ _))

variable (limit : Nat) (frames : List Frame) (ts : List Transition)

/-- One step, if it is possible: a comparison is handed out only to a worker that is free. -/
def step (p : Pool) : Event → Option Pool
  | .launch =>
    if p.launched < ts.length ∧ p.running.length < limit then
      some { p with launched := p.launched + 1, running := p.launched :: p.running }
    else none
  | .complete k =>
    if k ∈ p.running then ts[k]?.map fun t => p.settle k (compare frames t)
    else none

def run (events : List Event) (p : Pool) : Option Pool :=
  events.foldlM (step limit frames ts) p

/-- The change of a transition with the rows that were found for it. -/
def attach (t : Transition) (rows : List (Option Columns)) : Except Error Change :=
  match frames[t.prev]?, frames[t.next]? with
  | some prev, some next => .ok ⟨t, prev, next, rows⟩
  | _, _ => .error (.missingFrame t)

def script (target : Target) (reel : Reel) (p : Pool) : Except Error Script :=
  match p.failure with
  | some e => .error e
  | none => do
    let changes ← (ts.zip p.rows).mapM fun found => attach reel.frames found.1 found.2
    return .ofChanges target reel changes

end Pool

/-- Write the script of a reel whose frames are compared by at most `limit` workers at a time, for the steps that
they take. There is no outcome if these steps are not possible, or not all. -/
def writeBy (limit : Nat) (events : List Event) (room : Option Nat) (target : Target) (pingPong : Bool)
    (reel : Reel) : Option (Bytes × Except Error (List String)) := do
  let ts := transitions reel.frames.length pingPong
  let p ← Pool.run limit reel.frames ts events (.initial ts.length)
  if p.Done ts.length then
    return publish room (if reel.frames = [] then .error .noFrames else p.script ts target reel)
  else none

/-! ### What a step keeps -/

namespace Pool

section Steps

variable {limit : Nat} {frames : List Frame} {ts : List Transition} {p q : Pool}

/-- A comparison is handed out, or a running one leaves what comparing its transition gives. -/
theorem step_cases {e : Event} (h : p.step limit frames ts e = some q) :
    (e = .launch ∧ p.launched < ts.length ∧ p.running.length < limit ∧
      q = { p with launched := p.launched + 1, running := p.launched :: p.running }) ∨
    ∃ k t, e = .complete k ∧ k ∈ p.running ∧ ts[k]? = some t ∧ q = p.settle k (compare frames t) := by
  cases e with
  | launch =>
    rw [step] at h
    split at h
    · next hfree => exact .inl ⟨rfl, hfree.1, hfree.2, (Option.some.inj h).symm⟩
    · cases h
  | complete k =>
    rw [step] at h
    split at h
    · next hk =>
      obtain ⟨t, ht, hq⟩ := Option.map_eq_some_iff.1 h
      exact .inr ⟨k, t, rfl, hk, ht, hq.symm⟩
    · cases h

theorem step_complete {k : Nat} {t : Transition} (hk : k ∈ p.running) (ht : ts[k]? = some t) :
    p.step limit frames ts (.complete k) = some (p.settle k (compare frames t)) := by
  rw [step, if_pos hk, ht]
  rfl

theorem settle_running (p : Pool) (k : Nat) (outcome : Except Error Change) :
    (p.settle k outcome).running = p.running.erase k := by
  cases outcome <;> rfl

theorem settle_launched (p : Pool) (k : Nat) (outcome : Except Error Change) :
    (p.settle k outcome).launched = p.launched := by
  cases outcome <;> rfl

theorem settle_failure_isSome {k : Nat} {outcome : Except Error Change} (h : p.failure.isSome) :
    (p.settle k outcome).failure.isSome := by
  cases outcome with
  | ok c => exact h
  | error e =>
    show (p.failure.or (some e)).isSome
    rw [Option.isSome_or, h, Bool.true_or]

def Left (frames : List Frame) (p : Pool) (k : Nat) (t : Transition) : Prop :=
  (∃ c, compare frames t = .ok c ∧ p.rows[k]? = some c.rows) ∨
    ∃ e, compare frames t = .error e ∧ p.failure.isSome

/-- Every completed comparison has left rows or a failure, and the failure is that of some comparison. -/
structure Sound (frames : List Frame) (ts : List Transition) (p : Pool) : Prop where
  launched_le : p.launched ≤ ts.length
  nodup : p.running.Nodup
  running_lt : ∀ k ∈ p.running, k < p.launched
  length_rows : p.rows.length = ts.length
  left : ∀ k t, ts[k]? = some t → k < p.launched → k ∉ p.running → p.Left frames k t
  failed : ∀ e, p.failure = some e → ∃ t ∈ ts, compare frames t = .error e

theorem sound_initial (frames : List Frame) (ts : List Transition) : (initial ts.length).Sound frames ts where
  launched_le := Nat.zero_le _
  nodup := List.nodup_nil
  running_lt k hk := absurd hk List.not_mem_nil
  length_rows := List.length_replicate
  left k t _ hk _ := absurd hk (Nat.not_lt_zero k)
  failed e he := by cases he

theorem Sound.launch (h : p.Sound frames ts) (hlt : p.launched < ts.length) :
    Sound frames ts { p with launched := p.launched + 1, running := p.launched :: p.running } where
  launched_le := hlt
  nodup := List.nodup_cons.2 ⟨fun hmem => Nat.lt_irrefl _ (h.running_lt _ hmem), h.nodup⟩
  running_lt := List.forall_mem_cons.2
    ⟨Nat.lt_succ_self _, fun k hk => Nat.lt_succ_of_lt (h.running_lt k hk)⟩
  length_rows := h.length_rows
  left k t ht hk hnot := by
    rw [List.mem_cons, not_or] at hnot
    exact h.left k t ht (Nat.lt_of_le_of_ne (Nat.le_of_lt_succ hk) hnot.1) hnot.2
  failed := h.failed

theorem Sound.left_settle_self (h : p.Sound frames ts) {k : Nat} {t : Transition} (ht : ts[k]? = some t) :
    (p.settle k (compare frames t)).Left frames k t := by
  cases hcompare : compare frames t with
  | ok c =>
    have hk : k < p.rows.length := by
      rw [h.length_rows]
      exact (List.getElem?_eq_some_iff.1 ht).1
    exact .inl ⟨c, hcompare, List.getElem?_set_self hk⟩
  | error e =>
    refine .inr ⟨e, hcompare, ?_⟩
    show (p.failure.or (some e)).isSome
    rw [Option.isSome_or, Option.isSome_some, Bool.or_true]

theorem Left.settle {k j : Nat} {t : Transition} (h : p.Left frames j t) (hne : k ≠ j)
    (outcome : Except Error Change) : (p.settle k outcome).Left frames j t := by
  obtain ⟨c, hcompare, hrows⟩ | ⟨e, hcompare, hfailure⟩ := h
  · refine .inl ⟨c, hcompare, ?_⟩
    cases outcome with
    | ok c' =>
      show (p.rows.set k c'.rows)[j]? = _
      rw [List.getElem?_set_ne hne, hrows]
    | error e => exact hrows
  · exact .inr ⟨e, hcompare, settle_failure_isSome hfailure⟩

theorem Sound.settle (h : p.Sound frames ts) {k : Nat} {t : Transition} (ht : ts[k]? = some t) :
    (p.settle k (compare frames t)).Sound frames ts where
  launched_le := by
    rw [settle_launched]
    exact h.launched_le
  nodup := by
    rw [settle_running]
    exact h.nodup.erase k
  running_lt j hj := by
    rw [settle_running] at hj
    rw [settle_launched]
    exact h.running_lt j (List.mem_of_mem_erase hj)
  length_rows := by
    cases compare frames t with
    | ok c => exact List.length_set.trans h.length_rows
    | error e => exact h.length_rows
  left j u hu hj hnot := by
    rw [settle_launched] at hj
    rw [settle_running] at hnot
    by_cases hsame : k = j
    · subst hsame
      cases ht.symm.trans hu
      exact h.left_settle_self ht
    · have hbefore : j ∉ p.running := fun hmem => hnot ((List.mem_erase_of_ne (Ne.symm hsame)).2 hmem)
      exact (h.left j u hu hj hbefore).settle hsame _
  failed e he := by
    cases hcompare : compare frames t with
    | ok c =>
      rw [hcompare] at he
      exact h.failed e he
    | error e' =>
      rw [hcompare] at he
      obtain hfirst | ⟨_, hnew⟩ := Option.or_eq_some_iff.1 he
      · exact h.failed e hfirst
      · cases hnew
        exact ⟨t, List.mem_of_getElem? ht, hcompare⟩

/-- The steps that are left: two for a comparison that has not been handed out, one for one that is running. -/
def remaining (count : Nat) (p : Pool) : Nat :=
  2 * (count - p.launched) + p.running.length

/-- A step keeps the pool sound, and leaves one step less. -/
theorem Sound.step (h : p.Sound frames ts) {e : Event} (hstep : p.step limit frames ts e = some q) :
    q.Sound frames ts ∧ q.remaining ts.length + 1 = p.remaining ts.length := by
  obtain ⟨_, hlt, _, hq⟩ | ⟨k, t, _, hk, ht, hq⟩ := step_cases hstep
  · subst hq
    refine ⟨h.launch hlt, ?_⟩
    simp only [remaining, List.length_cons]
    omega
  · subst hq
    refine ⟨h.settle ht, ?_⟩
    have hpos := List.length_pos_of_mem hk
    rw [remaining, remaining, settle_launched, settle_running, List.length_erase_of_mem hk]
    omega

/-- A run keeps the pool sound, and every one of its steps is one less to be taken. -/
theorem Sound.run (h : p.Sound frames ts) {events : List Event} (hrun : Pool.run limit frames ts events p = some q) :
    q.Sound frames ts ∧ q.remaining ts.length + events.length = p.remaining ts.length := by
  induction events generalizing p with
  | nil =>
    cases hrun
    exact ⟨h, rfl⟩
  | cons e events ih =>
    rw [Pool.run, List.foldlM_cons] at hrun
    obtain ⟨p', hstep, hrest⟩ := Option.bind_eq_some_iff.1 hrun
    obtain ⟨hsound, hone⟩ := h.step hstep
    obtain ⟨hq, hmore⟩ := ih hsound hrest
    refine ⟨hq, ?_⟩
    rw [List.length_cons]
    omega

theorem run_append {events more : List Event} (h : run limit frames ts events p = some q) :
    run limit frames ts (events ++ more) p = run limit frames ts more q := by
  rw [Pool.run, List.foldlM_append]
  rw [Pool.run] at h
  rw [h]
  rfl

/-! ### Every run comes to an end -/

/-- As long as there is a worker at all, something can happen until all comparisons are complete. -/
theorem Sound.progress (h : p.Sound frames ts) (hlimit : 0 < limit) (hdone : ¬ p.Done ts.length) :
    ∃ e q, p.step limit frames ts e = some q := by
  cases hrunning : p.running with
  | nil =>
    have hne : p.launched ≠ ts.length := fun heq => hdone ⟨heq, hrunning⟩
    have hle := h.launched_le
    have hfree : p.launched < ts.length ∧ p.running.length < limit := by
      rw [hrunning]
      exact ⟨by omega, hlimit⟩
    exact ⟨.launch, _, if_pos hfree⟩
  | cons k others =>
    have hk : k ∈ p.running := by
      rw [hrunning]
      exact List.mem_cons_self
    have hlt : k < ts.length := Nat.lt_of_lt_of_le (h.running_lt k hk) h.launched_le
    exact ⟨.complete k, _, step_complete hk (List.getElem?_eq_getElem hlt)⟩

theorem Sound.exists_run (h : p.Sound frames ts) (hlimit : 0 < limit) :
    ∃ events q, Pool.run limit frames ts events p = some q ∧ q.Done ts.length := by
  induction hleft : p.remaining ts.length generalizing p with
  | zero =>
    have hle := h.launched_le
    simp only [remaining] at hleft
    exact ⟨[], p, rfl, by omega, List.eq_nil_of_length_eq_zero (by omega)⟩
  | succ n ih =>
    by_cases hdone : p.Done ts.length
    · exact ⟨[], p, rfl, hdone⟩
    · obtain ⟨e, p', hstep⟩ := h.progress hlimit hdone
      obtain ⟨hsound, hone⟩ := h.step hstep
      obtain ⟨events, q, hrun, hq⟩ := ih hsound (by omega)
      refine ⟨e :: events, q, ?_, hq⟩
      rw [Pool.run, List.foldlM_cons, hstep]
      exact hrun

/-- With a worker for each of them, all comparisons can be handed out before the first is completed. -/
theorem run_launches (hlimit : ts.length ≤ limit) {n : Nat} (hn : p.launched + n ≤ ts.length)
    (hrunning : p.running.length = p.launched) :
    ∃ q, Pool.run limit frames ts (List.replicate n .launch) p = some q ∧ q.launched = p.launched + n ∧
      q.running.length = q.launched := by
  induction n generalizing p with
  | zero => exact ⟨p, rfl, rfl, hrunning⟩
  | succ n ih =>
    have hfree : p.launched < ts.length ∧ p.running.length < limit := by omega
    obtain ⟨q, hrun, hlaunched, hq⟩ :=
      @ih { p with launched := p.launched + 1, running := p.launched :: p.running } (by dsimp only; omega)
        (by rw [List.length_cons, hrunning])
    refine ⟨q, ?_, by rw [hlaunched]; dsimp only; omega, hq⟩
    rw [List.replicate_succ, Pool.run, List.foldlM_cons, step, if_pos hfree]
    exact hrun

theorem Sound.run_completes (h : p.Sound frames ts) (limit : Nat) {order : List Nat}
    (horder : order.Perm p.running) :
    ∃ q, Pool.run limit frames ts (order.map .complete) p = some q ∧ q.launched = p.launched ∧ q.running = [] := by
  induction order generalizing p with
  | nil => exact ⟨p, rfl, rfl, List.perm_nil.1 horder.symm⟩
  | cons k order ih =>
    have hk : k ∈ p.running := horder.subset List.mem_cons_self
    have hlt : k < ts.length := Nat.lt_of_lt_of_le (h.running_lt k hk) h.launched_le
    have ht := List.getElem?_eq_getElem hlt
    have hrest : order.Perm (p.settle k (compare frames ts[k])).running := by
      rw [settle_running]
      exact List.cons_perm_iff_perm_erase.1 horder |>.2
    obtain ⟨q, hrun, hlaunched, hq⟩ := ih (h.settle ht) hrest
    refine ⟨q, ?_, hlaunched.trans (settle_launched _ _ _), hq⟩
    rw [List.map_cons, Pool.run, List.foldlM_cons, step_complete hk ht]
    exact hrun

/-- With a worker for each of them, the comparisons can be completed in any order. -/
theorem run_order (hlimit : ts.length ≤ limit) {order : List Nat} (horder : order.Perm (List.range ts.length)) :
    ∃ q, Pool.run limit frames ts (List.replicate ts.length .launch ++ order.map .complete) (initial ts.length) =
        some q ∧
      q.Done ts.length := by
  obtain ⟨p, hrun, hlaunched, hlength⟩ := @run_launches limit frames ts (initial ts.length) hlimit ts.length
    (Nat.zero_add _).le rfl
  have hall : p.launched = ts.length := hlaunched.trans (Nat.zero_add _)
  have hsound := ((sound_initial frames ts).run hrun).1
  -- as many different numbers below the length as there are: all of them are running
  have hrunning : p.running.Perm (List.range ts.length) := by
    apply (hsound.nodup.subperm _).perm_of_length_le
    · rw [List.length_range, hlength, hall]
    · intro k hk
      rw [List.mem_range, ← hall]
      exact hsound.running_lt k hk
  obtain ⟨q, hcompletes, hq, hnone⟩ := hsound.run_completes limit (horder.trans hrunning.symm)
  exact ⟨q, (run_append hrun).trans hcompletes, hq.trans hall, hnone⟩

/-! ### The script that is written -/

theorem attach_rows {t : Transition} {c : Change} (h : compare frames t = .ok c) :
    attach frames t c.rows = .ok c := by
  rw [compare] at h
  split at h
  · next prev next hprev hnext =>
    split at h
    · cases h
      rw [attach, hprev, hnext]
    · cases h
  · cases h

theorem mapM_attach {rows : List (List (Option Columns))}
    (h : List.Forall₂ (fun t found => ∃ c, compare frames t = .ok c ∧ found = c.rows) ts rows) :
    (ts.zip rows).mapM (fun found => attach frames found.1 found.2) = ts.mapM (compare frames) := by
  induction h with
  | nil => rfl
  | cons hc _ ih =>
    obtain ⟨c, hcompare, hfound⟩ := hc
    rw [List.zip_cons_cons, List.mapM_cons, List.mapM_cons, ih, hcompare, hfound, attach_rows hcompare]

/-- Without a failure, all rows are there when the comparisons are complete. -/
theorem Sound.forall₂_rows (h : p.Sound frames ts) (hdone : p.Done ts.length) (hfailure : p.failure = none) :
    List.Forall₂ (fun t found => ∃ c, compare frames t = .ok c ∧ found = c.rows) ts p.rows := by
  refine List.forall₂_iff_get.2 ⟨h.length_rows.symm, fun k hk hrows => ?_⟩
  have hleft := h.left k ts[k] (List.getElem?_eq_getElem hk) (by rw [hdone.1]; exact hk)
    (by rw [hdone.2]; exact List.not_mem_nil)
  obtain ⟨c, hcompare, hfound⟩ | ⟨e, _, hsome⟩ := hleft
  · exact ⟨c, hcompare, (List.getElem?_eq_some_iff.1 hfound).2⟩
  · rw [hfailure] at hsome
    cases hsome

end Steps

/-- If no comparison fails, the script is the one that is written without workers. Otherwise there is none, and
its failure is that of a comparison. -/
theorem Sound.script_cases {p : Pool} {pingPong : Bool} {reel : Reel} (target : Target)
    (h : p.Sound reel.frames (transitions reel.frames.length pingPong))
    (hdone : p.Done (transitions reel.frames.length pingPong).length) (hne : reel.frames ≠ []) :
    ((∀ t ∈ transitions reel.frames.length pingPong, ∃ c, compare reel.frames t = .ok c) ∧
      p.script (transitions reel.frames.length pingPong) target reel = Patch.script target pingPong reel) ∨
    ∃ t ∈ transitions reel.frames.length pingPong, ∃ e, compare reel.frames t = .error e ∧
      p.script (transitions reel.frames.length pingPong) target reel = .error e := by
  cases hfailure : p.failure with
  | none =>
    have hrows := h.forall₂_rows hdone hfailure
    refine .inl ⟨fun t ht => ?_, ?_⟩
    · obtain ⟨k, hk, heq⟩ := List.getElem_of_mem ht
      obtain ⟨c, hcompare, _⟩ := (List.forall₂_iff_get.1 hrows).2 k hk (h.length_rows ▸ hk)
      subst heq
      exact ⟨c, hcompare⟩
    · rw [Pool.script, Patch.script, hfailure, if_neg hne]
      show (_ >>= _) = _
      rw [mapM_attach hrows]
  | some e =>
    obtain ⟨t, ht, hcompare⟩ := h.failed e hfailure
    refine .inr ⟨t, ht, e, hcompare, ?_⟩
    rw [Pool.script, hfailure]

end Pool

/-! ### All schedules -/

/-- The frames of a transition are there, and have different sizes. -/
structure Mismatched (frames : List Frame) (t : Transition) (prev next : Frame) : Prop where
  prev_eq : frames[t.prev]? = some prev
  next_eq : frames[t.next]? = some next
  sizes : prev.width ≠ next.width ∨ prev.height ≠ next.height

/-- Frames whose characters are all there can be compared unless their sizes differ. -/
theorem compare_cases {frames : List Frame} (hample : ∀ f ∈ frames, f.Ample) {t : Transition}
    (ht : t.prev < frames.length ∧ t.next < frames.length) :
    ((∃ c, compare frames t = .ok c) ∧ ∀ prev next, ¬ Mismatched frames t prev next) ∨
      ∃ prev next, Mismatched frames t prev next ∧
        compare frames t = .error (.transition t (.sizesDiffer .compared prev.size next.size)) := by
  have hprev := List.getElem?_eq_getElem ht.1
  have hnext := List.getElem?_eq_getElem ht.2
  by_cases hsizes : frames[t.prev].width ≠ frames[t.next].width ∨ frames[t.prev].height ≠ frames[t.next].height
  · refine .inr ⟨_, _, ⟨hprev, hnext, hsizes⟩, ?_⟩
    rw [compare, hprev, hnext]
    simp only [Frame.changedRows, if_pos hsizes]
  · have hsame : frames[t.prev].width = frames[t.next].width ∧ frames[t.prev].height = frames[t.next].height := by
      simpa only [not_or, not_not] using hsizes
    obtain ⟨rows, hrows, _⟩ := Frame.changedRows_ok hsame.1 hsame.2 (hample _ (List.getElem_mem ht.1))
      (hample _ (List.getElem_mem ht.2))
    refine .inl ⟨⟨⟨t, _, _, rows⟩, compare_eq ⟨rfl, hprev, hnext, hrows⟩⟩, fun prev next hmismatched => ?_⟩
    cases hprev.symm.trans hmismatched.prev_eq
    cases hnext.symm.trans hmismatched.next_eq
    exact hsizes hmismatched.sizes

section Schedules

variable {limit : Nat} {events : List Event} {room : Option Nat} {target : Target} {pingPong : Bool} {reel : Reel}

theorem writeBy_of_run {p : Pool}
    (hrun : Pool.run limit reel.frames (transitions reel.frames.length pingPong) events
      (.initial (transitions reel.frames.length pingPong).length) = some p)
    (hdone : p.Done (transitions reel.frames.length pingPong).length) :
    writeBy limit events room target pingPong reel =
      some (publish room (if reel.frames = [] then .error .noFrames
        else p.script (transitions reel.frames.length pingPong) target reel)) := by
  rw [writeBy, hrun]
  exact if_pos hdone

theorem run_of_writeBy {outcome : Bytes × Except Error (List String)}
    (h : writeBy limit events room target pingPong reel = some outcome) :
    ∃ p, Pool.run limit reel.frames (transitions reel.frames.length pingPong) events
        (.initial (transitions reel.frames.length pingPong).length) = some p ∧
      p.Done (transitions reel.frames.length pingPong).length ∧
      outcome = publish room (if reel.frames = [] then .error .noFrames
        else p.script (transitions reel.frames.length pingPong) target reel) := by
  obtain ⟨p, hrun, hrest⟩ := Option.bind_eq_some_iff.1 h
  split at hrest
  · next hdone => exact ⟨p, hrun, hdone, (Option.some.inj hrest).symm⟩
  · cases hrest

/-- The outcome of every schedule, from what the comparisons give. -/
theorem writeBy_cases {outcome : Bytes × Except Error (List String)}
    (h : writeBy limit events room target pingPong reel = some outcome) :
    ((∀ t ∈ transitions reel.frames.length pingPong, ∃ c, compare reel.frames t = .ok c) ∧
      outcome = write room target pingPong reel) ∨
    ∃ t ∈ transitions reel.frames.length pingPong, ∃ e, compare reel.frames t = .error e ∧
      outcome = ([], .error e) := by
  obtain ⟨p, hrun, hdone, houtcome⟩ := run_of_writeBy h
  rw [write]
  by_cases hne : reel.frames = []
  · refine .inl ⟨fun t ht => ?_, ?_⟩
    · have hlt := (mem_transitions ht).1
      rw [hne] at hlt
      exact absurd hlt (Nat.not_lt_zero _)
    · rw [houtcome, if_pos hne, script, if_pos hne]
  · rw [if_neg hne] at houtcome
    have hsound := ((Pool.sound_initial reel.frames (transitions reel.frames.length pingPong)).run hrun).1
    obtain ⟨hall, hscript⟩ | ⟨t, ht, e, hcompare, hscript⟩ := hsound.script_cases target hdone hne
    · exact .inl ⟨hall, by rw [houtcome, hscript]⟩
    · exact .inr ⟨t, ht, e, hcompare, by rw [houtcome, hscript]; rfl⟩

end Schedules

/-- Whatever steps the workers take, they come to an end, and with enough of them in any order. The outcome is
that of comparing one transition after the other, unless the sizes of two frames differ: then there is no script
in any order, and the failure is that of such a transition. -/
theorem writeBy_agrees {limit : Nat} (hlimit : 0 < limit) {reel : Reel} (hample : ∀ f ∈ reel.frames, f.Ample)
    (room : Option Nat) (target : Target) (pingPong : Bool) :
    let ts := transitions reel.frames.length pingPong
    (∀ events p, Pool.run limit reel.frames ts events (.initial ts.length) = some p →
      events.length ≤ 2 * ts.length ∧
        ∃ more outcome, writeBy limit (events ++ more) room target pingPong reel = some outcome) ∧
    (∀ order : List Nat, ts.length ≤ limit → order.Perm (List.range ts.length) → ∃ outcome,
      writeBy limit (List.replicate ts.length .launch ++ order.map .complete) room target pingPong reel =
        some outcome) ∧
    ∀ events outcome, writeBy limit events room target pingPong reel = some outcome →
      ((∀ t ∈ ts, ∀ prev next, ¬ Mismatched reel.frames t prev next) →
        outcome = write room target pingPong reel ∧
          (reel.frames ≠ [] → ∃ s, script target pingPong reel = .ok s)) ∧
      ((∃ t ∈ ts, ∃ prev next, Mismatched reel.frames t prev next) →
        ∃ t ∈ ts, ∃ prev next, Mismatched reel.frames t prev next ∧
          outcome = ([], .error (.transition t (.sizesDiffer .compared prev.size next.size)))) := by
  intro ts
  refine ⟨fun events p hrun => ?_, fun order henough horder => ?_, fun events outcome houtcome => ⟨fun hsame => ?_, ?_⟩⟩
  · obtain ⟨hsound, hlength⟩ := (Pool.sound_initial reel.frames ts).run hrun
    obtain ⟨more, q, hmore, hdone⟩ := hsound.exists_run hlimit
    refine ⟨?_, more, _, writeBy_of_run ((Pool.run_append hrun).trans hmore) hdone⟩
    simp only [Pool.remaining, Pool.initial, List.length_nil, Nat.sub_zero] at hlength
    omega
  · obtain ⟨q, hrun, hdone⟩ := Pool.run_order henough horder
    exact ⟨_, writeBy_of_run hrun hdone⟩
  · obtain ⟨hall, heq⟩ | ⟨t, ht, e, hfails, _⟩ := writeBy_cases houtcome
    · refine ⟨heq, fun hne => ?_⟩
      obtain ⟨changes, hchanges, _⟩ := Frame.mapM_ok (P := fun _ _ => True) fun t ht =>
        (hall t ht).imp fun _ hc => ⟨hc, trivial⟩
      rw [script, if_neg hne, hchanges]
      exact ⟨_, rfl⟩
    · obtain ⟨⟨c, hc⟩, _⟩ | ⟨prev, next, hmismatched, _⟩ := compare_cases hample (mem_transitions ht)
      · cases hc.symm.trans hfails
      · exact absurd hmismatched (hsame t ht prev next)
  · intro hfound
    obtain ⟨t, ht, prev, next, hmismatched⟩ := hfound
    obtain ⟨hall, _⟩ | ⟨u, hu, e, hfails, heq⟩ := writeBy_cases houtcome
    · obtain ⟨c, hc⟩ := hall t ht
      obtain ⟨_, hsame⟩ | ⟨_, _, _, hfails⟩ := compare_cases hample (mem_transitions ht)
      · exact absurd hmismatched (hsame prev next)
      · cases hc.symm.trans hfails
    · obtain ⟨⟨c, hc⟩, _⟩ | ⟨prev', next', hmismatched', hfails'⟩ := compare_cases hample (mem_transitions hu)
      · cases hc.symm.trans hfails
      · cases hfails.symm.trans hfails'
        exact ⟨u, hu, prev', next', hmismatched', heq⟩

/-- Two frames of two cells. -/
def ripple : Reel where
  frames := [⟨"_calm", 0, 6, 2, 1, [32, 32], [14, 14]⟩, ⟨"_wave", 0, 6, 2, 1, [32, 160], [14, 14]⟩]

/-- Three frames, each with a cell more than the one before. -/
def ladder : Reel where
  frames := [⟨"_one", 0, 6, 1, 1, [32], [14]⟩, ⟨"_two", 0, 6, 2, 1, [32, 32], [14, 14]⟩,
    ⟨"_three", 0, 6, 3, 1, [32, 32, 32], [14, 14, 14]⟩]

theorem ample_ripple : ∀ f ∈ ripple.frames, f.Ample := by
  simp only [ripple, List.forall_mem_cons]
  exact ⟨⟨by decide, by decide, by decide, by decide⟩, ⟨by decide, by decide, by decide, by decide⟩, by simp⟩

theorem ample_ladder : ∀ f ∈ ladder.frames, f.Ample := by
  simp only [ladder, List.forall_mem_cons]
  exact ⟨⟨by decide, by decide, by decide, by decide⟩, ⟨by decide, by decide, by decide, by decide⟩,
    ⟨by decide, by decide, by decide, by decide⟩, by simp⟩

/-- The second of two comparisons is completed first, and the script is the same. Where all sizes differ, it depends
on the order which transition is reported. -/
theorem writeBy_agrees_ripple :
    (∀ f ∈ ripple.frames, f.Ample) ∧ (∀ f ∈ ladder.frames, f.Ample) ∧
      (∃ s, script {} false ripple = .ok s ∧
        writeBy 2 [.launch, .launch, .complete 1, .complete 0] none {} false ripple =
          some (utf8 s.text, .ok s.names)) ∧
      writeBy 2 [.launch, .launch, .complete 0, .launch, .complete 1, .complete 2] none {} false ladder =
        some ([], .error (.transition ⟨2, 0⟩ (.sizesDiffer .compared ⟨"_three", 3, 1⟩ ⟨"_one", 1, 1⟩))) ∧
      writeBy 2 [.launch, .launch, .complete 1, .launch, .complete 2, .complete 0] none {} false ladder =
        some ([], .error (.transition ⟨0, 1⟩ (.sizesDiffer .compared ⟨"_one", 1, 1⟩ ⟨"_two", 2, 1⟩))) ∧
      ∀ events outcome, writeBy 2 events none {} false ladder = some outcome →
        ∃ t prev next, Mismatched ladder.frames t prev next ∧
          outcome = ([], .error (.transition t (.sizesDiffer .compared prev.size next.size))) := by
  obtain ⟨_, horders, hagrees⟩ := writeBy_agrees (by decide : 0 < 2) ample_ripple none {} false
  obtain ⟨outcome, houtcome⟩ := horders [1, 0] (by decide) (by decide)
  have hsame : ∀ t ∈ transitions ripple.frames.length false, ∀ prev next, ¬ Mismatched ripple.frames t prev next := by
    intro t _ prev next hmismatched
    have hsize : ∀ f ∈ ripple.frames, f.width = 2 ∧ f.height = 1 := by simp [ripple]
    have hprev := hsize prev (List.mem_of_getElem? hmismatched.prev_eq)
    have hnext := hsize next (List.mem_of_getElem? hmismatched.next_eq)
    have hsizes := hmismatched.sizes
    omega
  obtain ⟨heq, hscript⟩ := (hagrees _ outcome houtcome).1 hsame
  obtain ⟨s, hs⟩ := hscript (List.cons_ne_nil _ _)
  rw [heq, write_eq hs] at houtcome
  refine ⟨ample_ripple, ample_ladder, ⟨s, hs, houtcome⟩, rfl, rfl, fun events outcome houtcome => ?_⟩
  obtain ⟨_, _, hfails⟩ := writeBy_agrees (by decide : 0 < 2) ample_ladder none {} false
  obtain ⟨t, _, prev, next, hmismatched, heq⟩ := (hfails events outcome houtcome).2
    ⟨⟨2, 0⟩, by decide, _, _, rfl, rfl, by decide⟩
  exact ⟨t, prev, next, hmismatched, heq⟩

end Petscii.Patch
