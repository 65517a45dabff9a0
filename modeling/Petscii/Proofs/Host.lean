import Petscii.Proofs.FileTree
import Petscii.Session

/-!
# Hosts and what is written to them

Writes to a host are carried out one after the other, up to the first that it refuses.

What can be seen of a host are its files and its output. A host is all or nothing if reading changes neither, a
file that cannot be written as a whole is not touched, and the output takes the bytes that it is given from the
front. Then writes leave whole files, and a part of the output only if they stop in it. Desks are such hosts.
-/

namespace Petscii

namespace Stream

theorem taken_prefix (room : Option Nat) (data : Bytes) : (deliver room data).taken <+: data := by
  cases room with
  | none => exact List.prefix_rfl
  | some n =>
    rw [deliver]
    split
    · exact List.prefix_rfl
    · exact List.take_prefix n data

theorem taken_of_ok {room : Option Nat} {data : Bytes} (h : (deliver room data).outcome = .ok ()) :
    (deliver room data).taken = data := by
  cases room with
  | none => rfl
  | some n =>
    rw [deliver] at h ⊢
    split at h
    · next hfits => rw [if_pos hfits]
    · cases h

end Stream

/-- What an action comes to, and the state that it leaves. -/
abbrev Host.act {σ α : Type} (action : StateM σ α) (s : σ) : α × σ :=
  StateT.run action s

/-! ### Writes -/

inductive Write where
  | file (path : String) (data : Bytes)
  | output (data : Bytes)

def Write.bytes : Write → Bytes
  | .file _ _ => []
  | .output data => data

def Write.ofFile (w : String × Bytes) : Write :=
  .file w.1 w.2

inductive Write.Refusal where
  | file (path : String) (cause : PathError)
  | output (cause : Stream.Error)

section Carry

variable {σ : Type} [Host (StateM σ)]

def Write.carry (s : σ) : Write → Except Write.Refusal Unit × σ
  | .file path data =>
    let result := Host.act (Host.writeFile path data) s
    (result.1.mapError (.file path), result.2)
  | .output data =>
    let result := Host.act (Host.writeOutput data) s
    (result.1.mapError .output, result.2)

/-- Carry out writes one after the other, up to the first that is refused. -/
def Write.carryAll (s : σ) : List Write → Except Write.Refusal Unit × σ
  | [] => (.ok (), s)
  | w :: rest =>
    match w.carry s with
    | (.ok (), s') => carryAll s' rest
    | (.error e, s') => (.error e, s')

theorem Write.carryAll_append (s : σ) (ws more : List Write) :
    carryAll s (ws ++ more) =
      match carryAll s ws with
      | (.ok (), s') => carryAll s' more
      | (.error e, s') => (.error e, s') := by
  induction ws generalizing s with
  | nil => rfl
  | cons w ws ih =>
    rw [List.cons_append, carryAll, carryAll]
    obtain ⟨outcome, s'⟩ := w.carry s
    cases outcome with
    | ok _ => exact ih s'
    | error e => rfl

theorem Write.carryAll_singleton (s : σ) (w : Write) : carryAll s [w] = w.carry s := by
  rw [carryAll]
  obtain ⟨outcome, s'⟩ := w.carry s
  cases outcome <;> rfl

/-- Writes that are not all carried out stop at one that is refused. -/
theorem Write.stops_of_carryAll {s s' : σ} {ws : List Write} {e : Write.Refusal} (h : carryAll s ws = (.error e, s')) :
    ∃ done next rest s₁, ws = done ++ next :: rest ∧ carryAll s done = (.ok (), s₁) ∧
      next.carry s₁ = (.error e, s') := by
  induction ws generalizing s with
  | nil => cases h
  | cons w ws ih =>
    rw [carryAll] at h
    cases hw : w.carry s with
    | mk outcome s₁ =>
      rw [hw] at h
      cases outcome with
      | error e =>
        cases h
        exact ⟨[], w, ws, s, rfl, rfl, hw⟩
      | ok _ =>
        obtain ⟨done, next, rest, s₂, rfl, hdone, hnext⟩ := ih h
        exact ⟨w :: done, next, rest, s₂, rfl, by rw [carryAll, hw]; exact hdone, hnext⟩

end Carry

/-! ### What can be seen of a host -/

/-- The files of a host at their places, and what its output has taken. -/
structure View (σ Place : Type) where
  file : σ → Place → Option Bytes
  output : σ → Bytes

namespace View

variable {σ Place : Type}

structure Same (v : View σ Place) (s s' : σ) : Prop where
  file : ∀ place, v.file s' place = v.file s place
  output : v.output s' = v.output s

theorem Same.refl (v : View σ Place) (s : σ) : v.Same s s :=
  ⟨fun _ => rfl, rfl⟩

theorem Same.trans {v : View σ Place} {s s' s'' : σ} (h : v.Same s s') (h' : v.Same s' s'') : v.Same s s'' :=
  ⟨fun place => (h'.file place).trans (h.file place), h'.output.trans h.output⟩

/-- A place is as it was or holds one of the files, and the output has taken some bytes. -/
structure Adds (v : View σ Place) (ws : List Write) (part : Bytes) (s s' : σ) : Prop where
  file : ∀ place, v.file s' place = v.file s place ∨
    ∃ path data, Write.file path data ∈ ws ∧ v.file s' place = some data
  output : v.output s' = v.output s ++ part

theorem Adds.trans {v : View σ Place} {ws ws' : List Write} {part part' : Bytes} {s s' s'' : σ}
    (h : v.Adds ws part s s') (h' : v.Adds ws' part' s' s'') : v.Adds (ws ++ ws') (part ++ part') s s'' where
  file place := by
    rcases h'.file place with heq | ⟨path, data, hmem, hdata⟩
    · rw [heq]
      refine (h.file place).imp_right ?_
      rintro ⟨path, data, hmem, hdata⟩
      exact ⟨path, data, List.mem_append_left _ hmem, hdata⟩
    · exact .inr ⟨path, data, List.mem_append_right _ hmem, hdata⟩
  output := by rw [h'.output, h.output, List.append_assoc]

variable [Host (StateM σ)]

/-- Reading changes nothing. A file is written as a whole or not touched. The output takes all that it is given,
or a part from the front if it fails. -/
structure AllOrNothing (v : View σ Place) : Prop where
  readFile : ∀ path s, v.Same s (Host.act (Host.readFile path) s).2
  isInteractive : ∀ s, v.Same s (Host.act Host.isInteractive s).2
  readInput : ∀ s, v.Same s (Host.act Host.readInput s).2
  written : ∀ {path data s s'}, Host.act (Host.writeFile path data) s = (.ok (), s') →
    v.output s' = v.output s ∧
      ∃ here, v.file s' here = some data ∧ ∀ place, place ≠ here → v.file s' place = v.file s place
  unwritten : ∀ {path data s s' e}, Host.act (Host.writeFile path data) s = (.error e, s') → v.Same s s'
  taken : ∀ {data s s'}, Host.act (Host.writeOutput data) s = (.ok (), s') →
    (∀ place, v.file s' place = v.file s place) ∧ v.output s' = v.output s ++ data
  cut : ∀ {data s s' e}, Host.act (Host.writeOutput data) s = (.error e, s') →
    (∀ place, v.file s' place = v.file s place) ∧ ∃ part, part <+: data ∧ v.output s' = v.output s ++ part

namespace AllOrNothing

variable {v : View σ Place} (h : v.AllOrNothing)
include h

theorem carried {w : Write} {s s' : σ} (hw : w.carry s = (.ok (), s')) : v.Adds [w] w.bytes s s' := by
  cases w with
  | file path data =>
    cases hresult : Host.act (Host.writeFile path data) s with
    | mk written s₁ =>
      rw [Write.carry, hresult] at hw
      cases written with
      | error e => cases hw
      | ok _ =>
        cases hw
        obtain ⟨houtput, here, hhere, hother⟩ := h.written hresult
        refine ⟨fun place => ?_, by rw [houtput, Write.bytes, List.append_nil]⟩
        by_cases hplace : place = here
        · exact .inr ⟨path, data, List.mem_singleton_self _, hplace ▸ hhere⟩
        · exact .inl (hother place hplace)
  | output data =>
    cases hresult : Host.act (Host.writeOutput data) s with
    | mk written s₁ =>
      rw [Write.carry, hresult] at hw
      cases written with
      | error e => cases hw
      | ok _ =>
        cases hw
        obtain ⟨hfile, houtput⟩ := h.taken hresult
        exact ⟨fun place => .inl (hfile place), houtput⟩

/-- A refused write leaves every file as it is, and the output may have taken a part. -/
theorem refused {w : Write} {s s' : σ} {e : Write.Refusal} (hw : w.carry s = (.error e, s')) :
    (∀ place, v.file s' place = v.file s place) ∧ ∃ part, part <+: w.bytes ∧ v.output s' = v.output s ++ part := by
  cases w with
  | file path data =>
    cases hresult : Host.act (Host.writeFile path data) s with
    | mk written s₁ =>
      rw [Write.carry, hresult] at hw
      cases written with
      | ok _ => cases hw
      | error e =>
        cases hw
        have hsame := h.unwritten hresult
        exact ⟨hsame.file, [], List.nil_prefix, by rw [hsame.output, List.append_nil]⟩
  | output data =>
    cases hresult : Host.act (Host.writeOutput data) s with
    | mk written s₁ =>
      rw [Write.carry, hresult] at hw
      cases written with
      | ok _ => cases hw
      | error e =>
        cases hw
        exact h.cut hresult

theorem carriedAll {ws : List Write} {s s' : σ} (hws : Write.carryAll s ws = (.ok (), s')) :
    v.Adds ws (ws.flatMap Write.bytes) s s' := by
  induction ws generalizing s with
  | nil =>
    cases hws
    exact ⟨fun place => .inl rfl, (List.append_nil _).symm⟩
  | cons w ws ih =>
    rw [Write.carryAll] at hws
    cases hw : w.carry s with
    | mk first s₁ =>
      rw [hw] at hws
      cases first with
      | error e => cases hws
      | ok _ =>
        have hfirst := h.carried hw
        exact hfirst.trans (ih hws)

end AllOrNothing

end View

/-! ### Desks -/

namespace Desk

/-- A desk with files written one after the other, up to the first that cannot be. -/
def save (d : Desk) (files : List (String × Bytes)) : Desk :=
  { d with files := (d.files.writeAll files).1 }

theorem carryAll_files (d : Desk) (files : List (String × Bytes)) :
    Write.carryAll d (files.map Write.ofFile) =
      ((d.files.writeAll files).2.mapError fun e => .file e.path e, d.save files) := by
  induction files generalizing d with
  | nil => rfl
  | cons w files ih =>
    obtain ⟨path, data⟩ := w
    have hcarry : (Write.file path data).carry d = ((d.files.write path data).2.mapError (.file path),
        { d with files := (d.files.write path data).1 }) := rfl
    rw [List.map_cons, Write.ofFile, Write.carryAll, hcarry, save, FileTree.writeAll]
    rcases d.files.write_cases path data with ⟨place, _, heq⟩ | ⟨e, heq⟩
    · rw [heq]
      exact ih _
    · have hpath : e.path = path := FileTree.path_of_write_error (congrArg Prod.snd heq)
      rw [heq]
      simp only [Except.mapError, hpath]

/-- The files of a desk, each at its place in the tree, and its output. -/
def view : View Desk (List String) where
  file d place := match d.files.node? place with
    | some (.file data) => some data
    | _ => none
  output d := d.output

theorem allOrNothing : view.AllOrNothing where
  readFile path d := .refl _ d
  isInteractive d := .refl _ d
  readInput d := ⟨fun _ => rfl, rfl⟩
  written {path data d d'} hwrite := by
    have houtcome : (d.files.write path data).2 = .ok () := congrArg Prod.fst hwrite
    have hdesk : { d with files := (d.files.write path data).1 } = d' := congrArg Prod.snd hwrite
    rcases d.files.write_cases path data with ⟨here, hleads, heq⟩ | ⟨e, heq⟩
    · rw [heq] at hdesk
      subst hdesk
      refine ⟨rfl, here, ?_, fun place hplace => ?_⟩
      · simp only [view, hleads.node?_put, if_pos]
      · simp only [view, hleads.node?_put, if_neg hplace]
    · rw [heq] at houtcome
      cases houtcome
  unwritten {path data d d' e} hwrite := by
    have houtcome : (d.files.write path data).2 = .error e := congrArg Prod.fst hwrite
    have hdesk : { d with files := (d.files.write path data).1 } = d' := congrArg Prod.snd hwrite
    rcases d.files.write_cases path data with ⟨here, _, heq⟩ | ⟨e', heq⟩
    · rw [heq] at houtcome
      cases houtcome
    · rw [heq] at hdesk
      subst hdesk
      exact .refl _ d
  taken {data d d'} hwrite := by
    have houtcome : (Stream.deliver d.room data).outcome = .ok () := congrArg Prod.fst hwrite
    have hdesk := congrArg Prod.snd hwrite
    subst hdesk
    refine ⟨fun _ => rfl, ?_⟩
    exact congrArg (d.output ++ ·) (Stream.taken_of_ok houtcome)
  cut {data d d' e} hwrite := by
    have hdesk := congrArg Prod.snd hwrite
    subst hdesk
    exact ⟨fun _ => rfl, _, Stream.taken_prefix d.room data, rfl⟩

end Desk

end Petscii
