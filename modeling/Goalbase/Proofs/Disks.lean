import Goalbase.Store.Disk
import Mathlib.Data.List.Induction
import Mathlib.Data.List.Nodup

/-!
# Goalbase.Proofs.Disks

Directories that are made, files that are replaced and names that are listed.

What is found at a location depends on the way to it: `Reaches` says that it leads through
directories only, `Clear` that no file stands in it. Where names may have any length, making the
directories of a clear location succeeds and changes only what is missing (`runSteps_directories`),
and filling a temporary file and renaming it replaces one file and nothing else
(`runSteps_replace`). A directory lists the names of its children, each once (`list_found`).
-/

namespace Goalbase

namespace Disk

variable {d : Disk} {l : Location} {name : String}

/-- Every name on the way belongs to a directory. -/
def Reaches (d : Disk) (l : Location) : Prop :=
  ∀ p : Location, p ≠ [] → p <+: l → d.nodes.get? p = some .directory

/-- No name on the way belongs to a file. -/
def Clear (d : Disk) (l : Location) : Prop :=
  ∀ p : Location, p ≠ [] → p <+: l → ∀ content, d.nodes.get? p ≠ some (.file content)

theorem ne_child_on_way {p : Location} (h : p <+: l) (name : String) : p ≠ l ++ [name] := by
  rintro rfl
  have hlength := h.length_le
  rw [List.length_append, List.length_singleton] at hlength
  omega

theorem reaches_nil : d.Reaches [] := fun _ hne hp => absurd (List.prefix_nil.1 hp) hne

theorem reaches_concat :
    d.Reaches (l ++ [name]) ↔ d.Reaches l ∧ d.nodes.get? (l ++ [name]) = some .directory := by
  constructor
  · intro h
    exact ⟨fun p hne hp => h p hne (hp.trans (List.prefix_append _ _)),
      h _ (by simp) (List.prefix_refl _)⟩
  · rintro ⟨h, hname⟩ p hne hp
    cases List.prefix_concat_iff.1 hp with
    | inl hp => exact hp ▸ hname
    | inr hp => exact h p hne hp

theorem Reaches.congr {d' : Disk} (h : d.Reaches l)
    (hsame : ∀ p : Location, p <+: l → d'.nodes.get? p = d.nodes.get? p) : d'.Reaches l :=
  fun p hne hp => (hsame p hp).trans (h p hne hp)

theorem Clear.init (h : d.Clear (l ++ [name])) : d.Clear l :=
  fun p hne hp => h p hne (hp.trans (List.prefix_append _ _))

/-! ## Finding -/

theorem tooLong_eq_false (hlimit : d.nameLimit = none) (name : String) :
    d.tooLong name = false := by
  rw [tooLong, hlimit]

theorem walk_last (d : Disk) (place l : Location) (node : Node) (name : String) :
    d.walk place node (l ++ [name]) = match d.walk place node l with
      | .error e => .error e
      | .ok (.file _) => .error .notDirectory
      | .ok .directory =>
        if d.tooLong name then .error .nameTooLong
        else match d.nodes.get? (place ++ l ++ [name]) with
          | none => .error .notFound
          | some next => .ok next := by
  induction l generalizing place node with
  | nil =>
    cases node with
    | file content => rfl
    | directory => cases hnode : d.nodes.get? (place ++ [name]) <;> simp [walk, hnode]
  | cons first rest ih =>
    cases node with
    | file content => rfl
    | directory =>
      cases hshort : d.tooLong first with
      | true => simp [walk, hshort]
      | false =>
        cases hnode : d.nodes.get? (place ++ [first]) with
        | none => simp [walk, hshort, hnode]
        | some next => simp [walk, hshort, hnode, ih]

/-- What is found at a location depends on what is found at the one above. -/
theorem find_last (d : Disk) (l : Location) (name : String) :
    d.find (l ++ [name]) = match d.find l with
      | .error e => .error e
      | .ok (.file _) => .error .notDirectory
      | .ok .directory =>
        if d.tooLong name then .error .nameTooLong
        else match d.nodes.get? (l ++ [name]) with
          | none => .error .notFound
          | some next => .ok next :=
  d.walk_last [] l .directory name

theorem find_concat (hlimit : d.nameLimit = none) (l : Location) (name : String) :
    d.find (l ++ [name]) = match d.find l with
      | .error e => .error e
      | .ok (.file _) => .error .notDirectory
      | .ok .directory => match d.nodes.get? (l ++ [name]) with
        | none => .error .notFound
        | some next => .ok next := by
  simp only [find_last, tooLong_eq_false hlimit, Bool.false_eq_true, if_false]

/-- All names are short enough. -/
def Fits (d : Disk) (l : Location) : Prop := ∀ name ∈ l, d.tooLong name = false

theorem fits_of_unlimited (hlimit : d.nameLimit = none) (l : Location) : d.Fits l :=
  fun name _ => tooLong_eq_false hlimit name

theorem fits_concat : d.Fits (l ++ [name]) ↔ d.Fits l ∧ d.tooLong name = false := by
  rw [Fits, List.forall_mem_append, List.forall_mem_singleton]
  exact Iff.rfl

/-- At the end of a way through directories there is one, the top directory at least. -/
theorem Reaches.find_of_fits (h : d.Reaches l) (hfits : d.Fits l) : d.find l = .ok .directory := by
  induction l using List.reverseRecOn with
  | nil => rfl
  | append_singleton l name ih =>
    obtain ⟨hl, hname⟩ := reaches_concat.1 h
    obtain ⟨hfits, hshort⟩ := fits_concat.1 hfits
    rw [find_last, ih hl hfits, hname, hshort]
    rfl

theorem Reaches.find_eq (hlimit : d.nameLimit = none) (h : d.Reaches l) :
    d.find l = .ok .directory := h.find_of_fits (fits_of_unlimited hlimit l)

theorem Reaches.find_child (hlimit : d.nameLimit = none) (h : d.Reaches l) (name : String) :
    d.find (l ++ [name]) = match d.nodes.get? (l ++ [name]) with
      | none => .error .notFound
      | some node => .ok node := by
  rw [find_concat hlimit, h.find_eq hlimit]

/-- A way without files is one through directories, or ends where a name is missing. -/
theorem Clear.reaches_of_fits (h : d.Clear l) (hfits : d.Fits l) :
    d.Reaches l ∨ d.find l = .error .notFound := by
  induction l using List.reverseRecOn with
  | nil => exact .inl reaches_nil
  | append_singleton l name ih =>
    obtain ⟨hfits, hshort⟩ := fits_concat.1 hfits
    obtain hl | hl := ih h.init hfits
    · rw [find_last, hl.find_of_fits hfits, hshort, reaches_concat]
      have hfile := h (l ++ [name]) (by simp) (List.prefix_refl _)
      cases hnode : d.nodes.get? (l ++ [name]) with
      | none => exact .inr rfl
      | some node =>
        cases node with
        | directory => exact .inl ⟨hl, rfl⟩
        | file content => exact absurd hnode (hfile content)
    -- what is missing on the way is missing for all that lies below
    · exact .inr (by rw [find_last, hl])

theorem Clear.reaches_or (hlimit : d.nameLimit = none) (h : d.Clear l) :
    d.Reaches l ∨ d.find l = .error .notFound := h.reaches_of_fits (fits_of_unlimited hlimit l)

theorem Reaches.contentAt_child (hlimit : d.nameLimit = none) (h : d.Reaches l) (name : String) :
    d.contentAt (l ++ [name]) = match d.nodes.get? (l ++ [name]) with
      | none => .error .notFound
      | some .directory => .error .isDirectory
      | some (.file content) => .ok content := by
  rw [contentAt, h.find_child hlimit]
  cases d.nodes.get? (l ++ [name]) with
  | none => rfl
  | some node => cases node <;> rfl

theorem contentAt_missing (hlimit : d.nameLimit = none) (h : d.find l = .error .notFound)
    (name : String) : d.contentAt (l ++ [name]) = .error .notFound := by
  rw [contentAt, find_concat hlimit, h]

theorem Reaches.place_child (hlimit : d.nameLimit = none) (h : d.Reaches l) (name : String)
    (node : Node) :
    d.place (l ++ [name]) node = .ok { d with nodes := d.nodes.insert (l ++ [name]) node } := by
  rw [place, List.dropLast_concat, h.find_eq hlimit, List.getLast?_concat]
  exact if_neg (by rw [tooLong_eq_false hlimit]; exact Bool.false_ne_true)

/-! ## Making directories -/

theorem runSteps_append (d : Disk) (first second : List DiskStep) :
    d.runSteps (first ++ second) = match d.runSteps first with
      | (some e, after) => (some e, after)
      | (none, after) => after.runSteps second := by
  induction first generalizing d with
  | nil => rfl
  | cons step rest ih =>
    simp only [List.cons_append, runSteps]
    cases step.run d with
    | error e => rfl
    | ok after => exact ih after

theorem runSteps_ok {d' : Disk} {step : DiskStep} {rest : List DiskStep} (h : step.run d = .ok d') :
    d.runSteps (step :: rest) = d'.runSteps rest := by
  rw [runSteps, h]

theorem directorySteps_concat (l : Location) (name : String) :
    directorySteps (l ++ [name]) = directorySteps l ++ [.makeDirectory (l ++ [name])] := by
  have hinit : ∀ n ∈ List.range l.length,
      DiskStep.makeDirectory ((l ++ [name]).take (n + 1)) = .makeDirectory (l.take (n + 1)) := by
    intro n hn
    rw [List.take_append_of_le_length (List.mem_range.1 hn)]
  have hlast : (l ++ [name]).take (l.length + 1) = l ++ [name] :=
    List.take_of_length_le (by simp)
  rw [directorySteps, List.length_append, List.length_singleton, List.range_succ, List.map_append,
    List.map_congr_left hinit, List.map_singleton, hlast, directorySteps]

/-- The directories down to a location have been made, and nothing else has changed. -/
structure Opened (d d' : Disk) (l : Location) : Prop where
  limit : d'.nameLimit = d.nameLimit
  reaches : d'.Reaches l
  frame : ∀ p : Location, ¬p <+: l → d'.nodes.get? p = d.nodes.get? p

namespace Opened

variable {d' : Disk} {m : Location}

theorem clear (h : Opened d d' l) (hm : d.Clear m) : d'.Clear m := by
  intro p hne hp content
  by_cases hl : p <+: l
  · rw [h.reaches p hne hl]
    exact fun e => nomatch e
  · rw [h.frame p hl]
    exact hm p hne hp content

theorem preserves (h : Opened d d' l) (hm : d.Reaches m) : d'.Reaches m := by
  intro p hne hp
  by_cases hl : p <+: l
  · exact h.reaches p hne hl
  · rw [h.frame p hl]
    exact hm p hne hp

end Opened

/-- One directory more below those that are there. -/
theorem run_makeDirectory (hlimit : d.nameLimit = none) (hl : d.Reaches l)
    (h : d.Clear (l ++ [name])) :
    ∃ d', (DiskStep.makeDirectory (l ++ [name])).run d = .ok d' ∧ Opened d d' (l ++ [name]) := by
  have hfile := h (l ++ [name]) (by simp) (List.prefix_refl _)
  rw [DiskStep.run, hl.find_child hlimit]
  cases hnode : d.nodes.get? (l ++ [name]) with
  | some node =>
    cases node with
    | directory => exact ⟨d, rfl, rfl, reaches_concat.2 ⟨hl, hnode⟩, fun _ _ => rfl⟩
    | file content => exact absurd hnode (hfile content)
  | none =>
    refine ⟨_, hl.place_child hlimit name .directory, rfl,
      reaches_concat.2 ⟨hl.congr ?_, d.nodes.get?_insert_self _ _⟩, ?_⟩
    · exact fun p hp => d.nodes.get?_insert_ne _ (ne_child_on_way hp name)
    · exact fun p hp => d.nodes.get?_insert_ne _ fun e => hp (e ▸ List.prefix_refl _)

theorem runSteps_directories (hlimit : d.nameLimit = none) (h : d.Clear l) :
    ∃ d', d.runSteps (directorySteps l) = (none, d') ∧ Opened d d' l := by
  induction l using List.reverseRecOn with
  | nil => exact ⟨d, rfl, rfl, reaches_nil, fun _ _ => rfl⟩
  | append_singleton l name ih =>
    obtain ⟨d₁, hrun, hopened⟩ := ih h.init
    obtain ⟨d₂, hstep, hlast⟩ :=
      run_makeDirectory (hopened.limit.trans hlimit) hopened.reaches (hopened.clear h)
    refine ⟨d₂, ?_, hlast.limit.trans hopened.limit, hlast.reaches, fun p hp => ?_⟩
    · rw [directorySteps_concat, runSteps_append, hrun]
      simp only [runSteps, hstep]
    · rw [hlast.frame p hp, hopened.frame p fun hl => hp (hl.trans (List.prefix_append _ _))]

/-! ## Replacing a file -/

theorem run_createFile (hlimit : d.nameLimit = none) (hl : d.Reaches l)
    (h : d.nodes.get? (l ++ [name]) = none) :
    (DiskStep.createFile (l ++ [name])).run d
      = .ok { d with nodes := d.nodes.insert (l ++ [name]) (.file []) } := by
  rw [DiskStep.run, hl.find_child hlimit, h]
  exact hl.place_child hlimit name _

theorem run_append {content : Bytes} (hlimit : d.nameLimit = none) (hl : d.Reaches l)
    (h : d.nodes.get? (l ++ [name]) = some (.file content)) (bytes : Bytes) :
    (DiskStep.append (l ++ [name]) bytes).run d
      = .ok { d with nodes := d.nodes.insert (l ++ [name]) (.file (content ++ bytes)) } := by
  rw [DiskStep.run, hl.contentAt_child hlimit, h]

theorem run_sync {content : Bytes} (hlimit : d.nameLimit = none) (hl : d.Reaches l)
    (h : d.nodes.get? (l ++ [name]) = some (.file content)) :
    (DiskStep.sync (l ++ [name])).run d = .ok d := by
  rw [DiskStep.run, hl.contentAt_child hlimit, h]

/-- A file is moved within its directory over a file or to a new name. -/
theorem run_rename {content : Bytes} {target : String} (hlimit : d.nameLimit = none)
    (hl : d.Reaches l) (h : d.nodes.get? (l ++ [name]) = some (.file content))
    (htarget : d.nodes.get? (l ++ [target]) ≠ some .directory) :
    (DiskStep.rename (l ++ [name]) (l ++ [target])).run d = .ok { d with
      nodes := (d.nodes.erase (l ++ [name])).insert (l ++ [target]) (.file content) } := by
  have hmoved : ({ d with nodes := d.nodes.erase (l ++ [name]) } : Disk).Reaches l :=
    hl.congr fun p hp =>
      (d.nodes.get?_erase _ p).trans (if_neg (ne_child_on_way hp name))
  rw [DiskStep.run, hl.contentAt_child hlimit, h]
  simp only [hl.find_child hlimit]
  cases hnode : d.nodes.get? (l ++ [target]) with
  | some node =>
    cases node with
    | directory => exact absurd hnode htarget
    | file old => rfl
  | none =>
    exact Reaches.place_child (d := { d with nodes := d.nodes.erase (l ++ [name]) }) hlimit hmoved
      target _

/-- The steps that fill a temporary file and rename it. -/
def replaceSteps (temporary target : Location) (bytes : Bytes) : List DiskStep :=
  [.createFile temporary, .append temporary bytes, .sync temporary, .rename temporary target]

theorem runSteps_replace {temporary : String} (hlimit : d.nameLimit = none) (hl : d.Reaches l)
    (htemporary : d.nodes.get? (l ++ [temporary]) = none)
    (hname : d.nodes.get? (l ++ [name]) ≠ some .directory) (hne : name ≠ temporary)
    (bytes : Bytes) :
    ∃ d', d.runSteps (replaceSteps (l ++ [temporary]) (l ++ [name]) bytes) = (none, d')
      ∧ d'.nameLimit = none
      ∧ ∀ p, d'.nodes.get? p = if p = l ++ [name] then some (.file bytes) else d.nodes.get? p := by
  have hchild : ∀ p : Location, p <+: l → p ≠ l ++ [temporary] :=
    fun p hp => ne_child_on_way hp temporary
  -- an empty file first, then its content, and last the new name
  let created : Disk := { d with nodes := d.nodes.insert (l ++ [temporary]) (.file []) }
  let filled : Disk :=
    { d with nodes := created.nodes.insert (l ++ [temporary]) (.file ([] ++ bytes)) }
  have hcreated : created.Reaches l := hl.congr fun p hp => d.nodes.get?_insert_ne _ (hchild p hp)
  have hfilled : filled.Reaches l :=
    hcreated.congr fun p hp => created.nodes.get?_insert_ne _ (hchild p hp)
  have hat : ∀ p, filled.nodes.get? p
      = if p = l ++ [temporary] then some (.file bytes) else d.nodes.get? p := by
    intro p
    rw [Table.get?_insert, Table.get?_insert]
    split <;> rfl
  have htarget : filled.nodes.get? (l ++ [name]) ≠ some .directory := by
    rw [hat, if_neg fun e => hne (List.singleton_inj.1 (List.append_cancel_left e))]
    exact hname
  have hfile : filled.nodes.get? (l ++ [temporary]) = some (.file bytes) := by
    rw [hat, if_pos rfl]
  refine ⟨{ d with
    nodes := (filled.nodes.erase (l ++ [temporary])).insert (l ++ [name]) (.file bytes) },
    ?_, hlimit, fun p => ?_⟩
  · have hcreate := run_createFile hlimit hl htemporary
    have happend := run_append (d := created) hlimit hcreated (Table.get?_insert_self _ _ _) bytes
    have hsync := run_sync (d := filled) hlimit hfilled hfile
    have hrename := run_rename (d := filled) hlimit hfilled hfile htarget
    exact (runSteps_ok hcreate).trans
      ((runSteps_ok happend).trans ((runSteps_ok hsync).trans (runSteps_ok hrename)))
  · rw [Table.get?_insert, Table.get?_erase, hat]
    split
    · rfl
    · split
      · rename_i hp
        rw [hp, htemporary]
      · rfl

/-! ## Listing -/

theorem childOf?_eq_some {directory p : Location} :
    childOf? directory p = some name ↔ p = directory ++ [name] := by
  constructor
  · intro h
    rw [childOf?] at h
    split at h
    · split at h
      · cases h
        assumption
      · cases h
    · cases h
  · rintro rfl
    rw [childOf?, List.getLast?_concat]
    exact if_pos rfl

/-- A directory that is found lists its children, each once. -/
theorem list_found (h : d.find l = .ok .directory) :
    ∃ names : List String, d.list l = .ok names ∧ names.Nodup
      ∧ ∀ name, name ∈ names ↔ d.nodes.get? (l ++ [name]) ≠ none := by
  refine ⟨d.nodes.keys.filterMap (childOf? l), by rw [list, h], ?_, fun name => ?_⟩
  · refine List.Nodup.filterMap (fun p q name hp hq => ?_) d.nodes.distinct
    rw [childOf?_eq_some.1 hp, childOf?_eq_some.1 hq]
  · rw [List.mem_filterMap, ← Table.mem_keys]
    constructor
    · rintro ⟨p, hp, hname⟩
      exact childOf?_eq_some.1 hname ▸ hp
    · exact fun hp => ⟨_, hp, childOf?_eq_some.2 rfl⟩

theorem list_children (hlimit : d.nameLimit = none) (h : d.Reaches l) :
    ∃ names : List String, d.list l = .ok names ∧ names.Nodup
      ∧ ∀ name, name ∈ names ↔ d.nodes.get? (l ++ [name]) ≠ none :=
  list_found (h.find_eq hlimit)

theorem list_missing (h : d.find l = .error .notFound) : d.list l = .error .notFound := by
  rw [list, h]

end Disk

end Goalbase
