import Goalbase.Proofs.Disks

/-!
# Goalbase.Proofs.Touching

What steps on a disk can do, and runs of them that stop anywhere.

`DiskStep.Ran` says all that a step can do to a disk. A step changes nothing outside the locations
that it names (`Ran.frame`), and whatever lies on a disk keeps lying in a directory
(`Ran.grounded`). On such a disk, if names are not too long, what is found at a location follows
from what lies there and on the way to it (`Grounded.find_alike`). `Cut steps taken` says what a
run of the steps has taken when it stops: the steps before some step and, where that one appends,
perhaps the first bytes of it. A step that fails stops a run in this way too (`exists_cut`).
-/

namespace Goalbase

namespace Disk

variable {d d' : Disk} {l m : Location} {name : String} {node : Node}

theorem file_ne_directory (content : Bytes) : some (Node.file content) ≠ some .directory := nofun

/-! ## What is found -/

theorem find_last_eq_ok : d.find (l ++ [name]) = .ok node ↔
    d.find l = .ok .directory ∧ d.tooLong name = false
      ∧ d.nodes.get? (l ++ [name]) = some node := by
  rw [find_last]
  cases d.find l with
  | error e => simp
  | ok above =>
    cases above with
    | file content => simp
    | directory =>
      cases d.tooLong name with
      | true => simp
      | false => cases d.nodes.get? (l ++ [name]) <;> simp

theorem find_tooLong (hl : d.find l = .ok .directory) (h : d.tooLong name = true) :
    d.find (l ++ [name]) = .error .nameTooLong := by
  rw [find_last, hl]
  exact if_pos h

theorem find_below_error {e : DiskError} (hl : d.find l = .error e) (name : String) :
    d.find (l ++ [name]) = .error e := by
  rw [find_last, hl]

theorem reaches_of_find (h : d.find l = .ok .directory) : d.Reaches l := by
  induction l using List.reverseRecOn with
  | nil => exact reaches_nil
  | append_singleton l name ih =>
    obtain ⟨hl, -, hname⟩ := find_last_eq_ok.1 h
    exact reaches_concat.2 ⟨ih hl, hname⟩

theorem Reaches.clear (h : d.Reaches l) : d.Clear l := by
  intro p hne hp content hfile
  rw [h p hne hp] at hfile
  cases hfile

theorem eq_none_of_find (hl : d.find l = .ok .directory)
    (h : d.find (l ++ [name]) = .error .notFound) : d.nodes.get? (l ++ [name]) = none := by
  rw [find_last, hl] at h
  cases hnode : d.nodes.get? (l ++ [name]) with
  | none => rfl
  | some node => cases hlong : d.tooLong name <;> simp [hlong, hnode] at h

theorem ne_directory_of_find (hl : d.find l = .ok .directory)
    (h : d.find (l ++ [name]) = .error .notFound) :
    d.nodes.get? (l ++ [name]) ≠ some .directory := by
  rw [eq_none_of_find hl h]
  exact (Option.some_ne_none _).symm

/-- A file is not the top directory and lies in a directory. -/
theorem exists_of_find_file {content : Bytes} (h : d.find l = .ok (.file content)) :
    ∃ m name, l = m ++ [name] ∧ d.find m = .ok .directory
      ∧ d.nodes.get? (m ++ [name]) = some (.file content) := by
  induction l using List.reverseRecOn with
  | nil => cases h
  | append_singleton m name _ =>
    obtain ⟨hm, -, hname⟩ := find_last_eq_ok.1 h
    exact ⟨m, name, rfl, hm, hname⟩

theorem contentAt_eq_ok {content : Bytes} :
    d.contentAt l = .ok content ↔ d.find l = .ok (.file content) := by
  rw [contentAt]
  cases d.find l with
  | error e => simp
  | ok node => cases node <;> simp

theorem exists_of_place (h : d.place l node = .ok d') :
    ∃ m name, l = m ++ [name] ∧ d.find m = .ok .directory
      ∧ d' = { d with nodes := d.nodes.insert l node } := by
  rw [place] at h
  split at h
  · cases h
  · cases h
  · rename_i hfound
    split at h
    · cases h
    · rename_i name hlast
      split at h
      · cases h
      · cases h
        exact ⟨l.dropLast, name, (List.dropLast_append_getLast? _ hlast).symm, hfound, rfl⟩

theorem tooLong_congr (hlimit : d'.nameLimit = d.nameLimit) (name : String) :
    d'.tooLong name = d.tooLong name := by
  rw [tooLong, tooLong, hlimit]

theorem Fits.congr (h : d.Fits l) (hlimit : d'.nameLimit = d.nameLimit) : d'.Fits l :=
  fun name hname => (tooLong_congr hlimit name).trans (h name hname)

theorem find_last_congr (hlimit : d'.nameLimit = d.nameLimit) (hl : d'.find l = d.find l)
    (hname : d'.nodes.get? (l ++ [name]) = d.nodes.get? (l ++ [name])) :
    d'.find (l ++ [name]) = d.find (l ++ [name]) := by
  rw [find_last, find_last, hl, hname, tooLong_congr hlimit]

/-- What is found depends on the nodes on the way only. -/
theorem find_congr (hlimit : d'.nameLimit = d.nameLimit)
    (h : ∀ p : Location, p ≠ [] → p <+: l → d'.nodes.get? p = d.nodes.get? p) :
    d'.find l = d.find l := by
  induction l using List.reverseRecOn with
  | nil => rfl
  | append_singleton l name ih =>
    have hl := ih fun p hne hp => h p hne (hp.trans (List.prefix_append _ _))
    exact find_last_congr hlimit hl (h _ (by simp) (List.prefix_refl _))

/-- A directory that is found without some file was there with it. -/
theorem find_of_erase (h : find { d with nodes := d.nodes.erase l } m = .ok .directory) :
    d.find m = .ok .directory := by
  rw [← h]
  refine find_congr rfl fun p hne hp => ?_
  have hnode := reaches_of_find h p hne hp
  have hpl : p ≠ l := by
    rintro rfl
    rw [Table.get?_erase, if_pos rfl] at hnode
    cases hnode
  exact ((d.nodes.get?_erase l p).trans (if_neg hpl)).symm

/-! ## Disks on which everything lies in a directory -/

def Grounded (d : Disk) : Prop :=
  ∀ (l : Location) (name : String), d.nodes.get? (l ++ [name]) ≠ none → d.Reaches l

theorem grounded_empty (nameLimit : Option Nat) : (empty nameLimit).Grounded :=
  fun _ _ h => absurd rfl h

theorem Grounded.reaches (hd : d.Grounded) (h : d.nodes.get? (l ++ [name]) = some node) :
    d.Reaches l :=
  hd l name (by rw [h]; exact Option.some_ne_none node)

theorem Grounded.find_node (hd : d.Grounded) (hfits : d.Fits (l ++ [name]))
    (h : d.nodes.get? (l ++ [name]) = some node) : d.find (l ++ [name]) = .ok node := by
  obtain ⟨hfits, hshort⟩ := fits_concat.1 hfits
  exact find_last_eq_ok.2 ⟨(hd.reaches h).find_of_fits hfits, hshort, h⟩

theorem Clear.find_missing (h : d.Clear l) (hfits : d.Fits (l ++ [name]))
    (hnone : d.nodes.get? (l ++ [name]) = none) : d.find (l ++ [name]) = .error .notFound := by
  obtain ⟨hfits, hshort⟩ := fits_concat.1 hfits
  obtain hl | hl := h.reaches_of_fits hfits
  · rw [find_last, hl.find_of_fits hfits, hshort, hnone]
    rfl
  · rw [find_last, hl]

theorem Grounded.find_blocked (hd : d.Grounded) (hfits : d.Fits l) (h : ¬d.Clear l) :
    d.find (l ++ [name]) = .error .notDirectory := by
  induction l using List.reverseRecOn generalizing name with
  | nil => exact absurd (fun p hne hp => absurd (List.prefix_nil.1 hp) hne) h
  | append_singleton l last ih =>
    by_cases hl : d.Clear l
    · -- the first file on the way is the one right above
      cases hnode : d.nodes.get? (l ++ [last]) with
      | none =>
        refine absurd (fun p hne hp content => ?_) h
        obtain rfl | hp := List.prefix_concat_iff.1 hp
        · rw [hnode]
          exact nofun
        · exact hl p hne hp content
      | some node =>
        rw [find_last, hd.find_node hfits hnode]
        cases node with
        | file content => rfl
        | directory =>
          exact absurd (Reaches.clear (reaches_concat.2 ⟨hd.reaches hnode, hnode⟩)) h
    · rw [find_last, ih (fits_concat.1 hfits).1 hl]

/-- What is found where the same lies on two disks, and files are on the way on both or on none. -/
theorem Grounded.find_alike (hd : d.Grounded) (hd' : d'.Grounded)
    (hlimit : d'.nameLimit = d.nameLimit) (hfits : d.Fits (l ++ [name]))
    (hname : d'.nodes.get? (l ++ [name]) = d.nodes.get? (l ++ [name]))
    (hclear : d'.Clear l ↔ d.Clear l) : d'.find (l ++ [name]) = d.find (l ++ [name]) := by
  have hfits' := hfits.congr hlimit
  cases hnode : d.nodes.get? (l ++ [name]) with
  | some node => rw [hd.find_node hfits hnode, hd'.find_node hfits' (hname.trans hnode)]
  | none =>
    by_cases h : d.Clear l
    · rw [h.find_missing hfits hnode, (hclear.2 h).find_missing hfits' (hname.trans hnode)]
    · rw [hd.find_blocked (fits_concat.1 hfits).1 h,
        hd'.find_blocked (fits_concat.1 hfits').1 fun h' => h (hclear.1 h')]

/-! ## What changes keep a disk grounded -/

theorem Reaches.insert_directory (h : d.Reaches m) (l : Location) :
    Reaches { d with nodes := d.nodes.insert l .directory } m := by
  intro p hne hp
  change (d.nodes.insert l .directory).get? p = _
  rw [Table.get?_insert, h p hne hp]
  split <;> rfl

theorem Reaches.insert_file (h : d.Reaches m) (hl : d.nodes.get? l ≠ some .directory)
    (content : Bytes) : Reaches { d with nodes := d.nodes.insert l (.file content) } m := by
  intro p hne hp
  have hp := h p hne hp
  have hpl : p ≠ l := by
    rintro rfl
    exact hl hp
  exact (d.nodes.get?_insert_ne _ hpl).trans hp

theorem Reaches.erase (h : d.Reaches m) (hl : d.nodes.get? l ≠ some .directory) :
    Reaches { d with nodes := d.nodes.erase l } m := by
  intro p hne hp
  have hp := h p hne hp
  have hpl : p ≠ l := by
    rintro rfl
    exact hl hp
  exact (d.nodes.get?_erase l p).trans ((if_neg hpl).trans hp)

theorem Grounded.insert_directory (hd : d.Grounded) (hl : d.Reaches l) (name : String) :
    Grounded { d with nodes := d.nodes.insert (l ++ [name]) .directory } := by
  intro m last h
  by_cases he : m ++ [last] = l ++ [name]
  · rw [(List.append_inj' he rfl).1]
    exact hl.insert_directory _
  · exact (hd m last (by rwa [← d.nodes.get?_insert_ne _ he])).insert_directory _

theorem Grounded.insert_file (hd : d.Grounded) (hl : d.Reaches l)
    (hname : d.nodes.get? (l ++ [name]) ≠ some .directory) (content : Bytes) :
    Grounded { d with nodes := d.nodes.insert (l ++ [name]) (.file content) } := by
  intro m last h
  by_cases he : m ++ [last] = l ++ [name]
  · rw [(List.append_inj' he rfl).1]
    exact hl.insert_file hname content
  · exact (hd m last (by rwa [← d.nodes.get?_insert_ne _ he])).insert_file hname content

theorem Grounded.erase (hd : d.Grounded) (hl : d.nodes.get? l ≠ some .directory) :
    Grounded { d with nodes := d.nodes.erase l } := by
  intro m last h
  refine (hd m last fun hnone => h ?_).erase hl
  exact (d.nodes.get?_erase l _).trans (by rw [hnone, ite_self])

end Disk

/-! ## Steps -/

namespace DiskStep

open Disk

/-- The locations that a step names. -/
def locations : DiskStep → List Location
  | .makeDirectory l => [l]
  | .createFile l => [l]
  | .append l _ => [l]
  | .sync l => [l]
  | .rename l target => [l, target]

/-- What a step that succeeds does to a disk. -/
inductive Ran (d : Disk) : DiskStep → Disk → Prop where
  | opened (l : Location) : Ran d (.makeDirectory l) d
  | made {l : Location} {name : String} (hl : d.Reaches l)
      (hname : d.nodes.get? (l ++ [name]) = none) : Ran d (.makeDirectory (l ++ [name]))
        { d with nodes := d.nodes.insert (l ++ [name]) .directory }
  | created {l : Location} {name : String} (hl : d.Reaches l)
      (hname : d.nodes.get? (l ++ [name]) ≠ some .directory) : Ran d (.createFile (l ++ [name]))
        { d with nodes := d.nodes.insert (l ++ [name]) (.file []) }
  | appended {l : Location} {name : String} {content : Bytes} (hl : d.Reaches l)
      (hname : d.nodes.get? (l ++ [name]) = some (.file content)) (bytes : Bytes) :
      Ran d (.append (l ++ [name]) bytes)
        { d with nodes := d.nodes.insert (l ++ [name]) (.file (content ++ bytes)) }
  | synced (l : Location) : Ran d (.sync l) d
  | renamed {l m : Location} {name : String} {content : Bytes}
      (hl : d.nodes.get? l = some (.file content)) (hm : d.Reaches m)
      (hname : d.nodes.get? (m ++ [name]) ≠ some .directory) : Ran d (.rename l (m ++ [name]))
        { d with nodes := (d.nodes.erase l).insert (m ++ [name]) (.file content) }

variable {d d' : Disk} {step : DiskStep}

theorem ran_createFile {l : Location} (h : (DiskStep.createFile l).run d = .ok d') :
    Ran d (.createFile l) d' := by
  rw [run] at h
  split at h
  · cases h
  · rename_i hfound
    cases h
    obtain ⟨m, name, rfl, hm, hname⟩ := exists_of_find_file hfound
    exact .created (reaches_of_find hm) (hname ▸ file_ne_directory _)
  · rename_i hfound
    obtain ⟨m, name, rfl, hm, rfl⟩ := exists_of_place h
    exact .created (reaches_of_find hm) (ne_directory_of_find hm hfound)
  · cases h

theorem ran_rename {l target : Location} (h : (DiskStep.rename l target).run d = .ok d') :
    Ran d (.rename l target) d' := by
  simp only [run] at h
  split at h
  · cases h
  · rename_i content hcontent
    obtain ⟨_, _, rfl, _, hl⟩ := exists_of_find_file (contentAt_eq_ok.1 hcontent)
    split at h
    · cases h
    · rename_i hfound
      cases h
      obtain ⟨m, name, rfl, hm, hname⟩ := exists_of_find_file hfound
      exact .renamed hl (reaches_of_find hm) (hname ▸ file_ne_directory _)
    · rename_i hfound
      obtain ⟨m, name, rfl, hm, rfl⟩ := exists_of_place h
      have hm := find_of_erase hm
      exact .renamed hl (reaches_of_find hm) (ne_directory_of_find hm hfound)
    · cases h

theorem ran_of_run (h : step.run d = .ok d') : step.Ran d d' := by
  cases step with
  | makeDirectory l =>
    rw [run] at h
    split at h
    · cases h
      exact .opened l
    · cases h
    · rename_i hfound
      obtain ⟨m, name, rfl, hm, rfl⟩ := exists_of_place h
      exact .made (reaches_of_find hm) (eq_none_of_find hm hfound)
    · cases h
  | createFile l => exact ran_createFile h
  | append l bytes =>
    rw [run] at h
    split at h
    · cases h
    · rename_i content hcontent
      cases h
      obtain ⟨m, name, rfl, hm, hname⟩ := exists_of_find_file (contentAt_eq_ok.1 hcontent)
      exact .appended (reaches_of_find hm) hname bytes
  | sync l =>
    rw [run] at h
    split at h
    · cases h
    · cases h
      exact .synced l
  | rename l target => exact ran_rename h

namespace Ran

theorem limit (h : step.Ran d d') : d'.nameLimit = d.nameLimit := by
  cases h <;> rfl

theorem frame (h : step.Ran d d') {p : Location} (hp : p ∉ step.locations) :
    d'.nodes.get? p = d.nodes.get? p := by
  cases h with
  | opened l => rfl
  | made _ _ => exact Table.get?_insert_ne _ _ (List.ne_of_not_mem_cons hp)
  | created _ _ => exact Table.get?_insert_ne _ _ (List.ne_of_not_mem_cons hp)
  | appended _ _ _ => exact Table.get?_insert_ne _ _ (List.ne_of_not_mem_cons hp)
  | synced l => rfl
  | renamed _ _ _ =>
    rw [locations, List.mem_cons, List.mem_singleton, not_or] at hp
    exact (Table.get?_insert_ne _ _ hp.2).trans ((d.nodes.get?_erase _ p).trans (if_neg hp.1))

theorem grounded (h : step.Ran d d') (hd : d.Grounded) : d'.Grounded := by
  cases h with
  | opened l => exact hd
  | made hl _ => exact hd.insert_directory hl _
  | created hl hname => exact hd.insert_file hl hname _
  | appended hl hname _ => exact hd.insert_file hl (hname ▸ file_ne_directory _) _
  | synced l => exact hd
  | renamed hl hm hname =>
    have hfile := hl ▸ file_ne_directory _
    refine (hd.erase hfile).insert_file (hm.erase hfile) (fun h => hname ?_) _
    rw [Table.get?_erase] at h
    split at h
    · cases h
    · exact h

end Ran

theorem exists_of_mem_directorySteps {l : Location} (h : step ∈ directorySteps l) :
    ∃ m, step = .makeDirectory m ∧ m <+: l := by
  obtain ⟨n, -, rfl⟩ := List.mem_map.1 h
  exact ⟨_, rfl, List.take_prefix _ _⟩

/-! ## Runs that stop -/

/-- What a run of the steps has taken when it stops. -/
inductive Cut : List DiskStep → List DiskStep → Prop where
  | stop (steps : List DiskStep) : Cut steps []
  | partway (l : Location) (bytes : Bytes) (n : Nat) (rest : List DiskStep) :
      Cut (.append l bytes :: rest) [.append l (bytes.take n)]
  | take (step : DiskStep) {rest taken : List DiskStep} (h : Cut rest taken) :
      Cut (step :: rest) (step :: taken)

variable {steps taken : List DiskStep}

theorem Cut.append_left (first : List DiskStep) {steps taken : List DiskStep}
    (h : Cut steps taken) : Cut (first ++ steps) (first ++ taken) := by
  induction first with
  | nil => exact h
  | cons step first ih => exact .take step ih

theorem cut_append (steps rest : List DiskStep) : Cut (steps ++ rest) steps := by
  have h := (Cut.stop rest).append_left steps
  rwa [List.append_nil] at h

theorem cut_self (steps : List DiskStep) : Cut steps steps := by
  have h := cut_append steps []
  rwa [List.append_nil] at h

/-- What holds of the steps, whatever number of bytes they append, holds of those taken. -/
theorem Cut.forall_mem {P : DiskStep → Prop} (h : Cut steps taken)
    (hbytes : ∀ l bytes bytes', P (.append l bytes) → P (.append l bytes'))
    (hP : ∀ step ∈ steps, P step) : ∀ step ∈ taken, P step := by
  induction h with
  | stop _ => exact fun _ h => nomatch h
  | partway l bytes n rest =>
    intro step hstep
    rw [List.mem_singleton.1 hstep]
    exact hbytes l bytes _ (hP _ List.mem_cons_self)
  | take step _ ih =>
    obtain ⟨hstep, hrest⟩ := List.forall_mem_cons.1 hP
    exact List.forall_mem_cons.2 ⟨hstep, ih hrest⟩

/-- A last step that appends nothing is taken with all the others, or the run stops before. -/
theorem Cut.concat_rename {l target : Location} (h : Cut (steps ++ [.rename l target]) taken) :
    taken = steps ++ [.rename l target] ∨ Cut steps taken := by
  induction steps generalizing taken with
  | nil =>
    cases h with
    | stop _ => exact .inr (.stop [])
    | take _ h =>
      cases h
      exact .inl rfl
  | cons step rest ih =>
    cases h with
    | stop _ => exact .inr (.stop _)
    | partway l bytes n _ => exact .inr (.partway l bytes n rest)
    | take _ h =>
      obtain rfl | h := ih h
      · exact .inl rfl
      · exact .inr (.take step h)

end DiskStep

namespace Disk

open DiskStep

variable {d d' : Disk} {step : DiskStep} {steps taken rest : List DiskStep}

theorem runSteps_eq_of_fst (h : (d.runSteps steps).1 = none) :
    d.runSteps steps = (none, (d.runSteps steps).2) := by
  rw [← h]

theorem runSteps_cons_eq_ok : d.runSteps (step :: rest) = (none, d') ↔
    ∃ m, step.run d = .ok m ∧ m.runSteps rest = (none, d') := by
  rw [runSteps]
  cases step.run d with
  | error e => simp
  | ok m => simp

/-- A run that fails has taken the steps before the one that failed. -/
theorem exists_cut (d : Disk) (steps : List DiskStep) :
    ∃ taken, Cut steps taken ∧ d.runSteps taken = (none, (d.runSteps steps).2) := by
  induction steps generalizing d with
  | nil => exact ⟨[], .stop [], rfl⟩
  | cons step rest ih =>
    rw [runSteps]
    cases hrun : step.run d with
    | error e => exact ⟨[], .stop _, rfl⟩
    | ok m =>
      obtain ⟨taken, hcut, htaken⟩ := ih m
      exact ⟨step :: taken, .take step hcut, runSteps_cons_eq_ok.2 ⟨m, hrun, htaken⟩⟩

/-- What every step keeps a run keeps. -/
theorem runSteps_invariant {P : Disk → Prop} (hrun : d.runSteps steps = (none, d'))
    (hstep : ∀ step ∈ steps, ∀ m m', step.Ran m m' → P m → P m') (hd : P d) : P d' := by
  induction steps generalizing d with
  | nil =>
    cases hrun
    exact hd
  | cons step rest ih =>
    obtain ⟨m, hm, hrest⟩ := runSteps_cons_eq_ok.1 hrun
    obtain ⟨hfirst, hsteps⟩ := List.forall_mem_cons.1 hstep
    exact ih hrest hsteps (hfirst d m (ran_of_run hm) hd)

theorem Grounded.runSteps (hd : d.Grounded) (hrun : d.runSteps steps = (none, d')) :
    d'.Grounded :=
  runSteps_invariant hrun (fun _ _ _ _ h => h.grounded) hd

/-- A run leaves everything as it is where no step of it works. -/
theorem runSteps_frame (hrun : d.runSteps steps = (none, d')) {p : Location}
    (hp : ∀ step ∈ steps, p ∉ step.locations) : d'.nodes.get? p = d.nodes.get? p :=
  runSteps_invariant (P := fun m => m.nodes.get? p = d.nodes.get? p) hrun
    (fun step hstep _ _ h hm => (h.frame (hp step hstep)).trans hm) rfl

end Disk

end Goalbase
