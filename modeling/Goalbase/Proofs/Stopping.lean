import Goalbase.Proofs.Confining

/-!
# Goalbase.Proofs.Stopping

A write to a disk happens as a whole or not at all.

A write may stop between any two of its steps, and in the middle of filling its temporary file
(`LocalStore.Stops`). Unless it came to the rename, the disk still `Resembles` the one before: some
directories are new where there was nothing, and temporary files do not count. No such file is on
the way to a record, and none has a name that is listed. So reads find what they found before, as
long as all names are short enough for the disk (`write_all_or_nothing`). A name that is too long
counts as missing only while the directory that it would lie in is missing (`stopped_write_seen`).
-/

namespace Goalbase

theorem sortNames_eq_of_mem {names names' : List String} (h : names.Nodup) (h' : names'.Nodup)
    (hmem : ∀ name, name ∈ names ↔ name ∈ names') : sortNames names = sortNames names' := by
  have hperm : (sortNames names).Perm (sortNames names') :=
    ((List.mergeSort_perm names _).trans ((List.perm_ext_iff_of_nodup h h').2 hmem)).trans
      (List.mergeSort_perm names' _).symm
  exact hperm.eq_of_pairwise (fun a b _ _ hab hba => absurd hab (lt_asymm hba))
    (sortNames_ascending h) (sortNames_ascending h')

namespace LocalStore

open Disk DiskStep

/-- The location of some write's temporary file. -/
def Temporary (root l : Location) : Prop :=
  ∃ path key serial, Named path ∧ l = temporaryFile root path key serial

/-- The location is on the way to the records of some path. -/
def OnWay (root l : Location) : Prop := ∃ path, Named path ∧ l <+: keysDirectory root path

/-- A name that is listed. -/
def Shown (name : String) : Prop := (name.toList.head? != some '.') = true

variable {s t : LocalStore} {d d' d'' : Disk} {root l : Location} {path : Path} {key name : String}
  {value : Bytes} {serial : Nat} {step : DiskStep} {taken : List DiskStep}

theorem shown_of_isName (h : isName name = true) : Shown name := head?_ne_dot h

theorem recordFile_not_onWay (key : String) : ¬OnWay root (recordFile root path key) := by
  rintro ⟨p, hp, h⟩
  exact recordFile_not_on_way hp key h

/-- Temporary files have names with a dot in front, so no name that is listed is one of them. -/
theorem not_temporary_recordFile (hname : Shown name) :
    ¬Temporary root (recordFile root path name) := by
  rintro ⟨p, key, serial, -, h⟩
  obtain ⟨-, rfl⟩ := recordFile_inj.1 h
  simp [Shown, String.append_assoc, String.toList_append] at hname

theorem OnWay.not_temporary (h : OnWay root l) : ¬Temporary root l := by
  rintro ⟨path, key, serial, -, rfl⟩
  exact recordFile_not_onWay _ h

/-! ## Disks that look alike -/

/-- The second disk has the same records as the first one. There may be directories where nothing
was, and temporary files do not count. -/
structure Resembles (root : Location) (d d' : Disk) : Prop where
  limit : d'.nameLimit = d.nameLimit
  nodes {l : Location} (hl : ¬Temporary root l) : d'.nodes.get? l = d.nodes.get? l
    ∨ OnWay root l ∧ d.nodes.get? l = none ∧ d'.nodes.get? l = some .directory

theorem resembles_refl (root : Location) (d : Disk) : Resembles root d d :=
  ⟨rfl, fun _ => .inl rfl⟩

theorem resembles_of_ran (h : step.Ran d d')
    (hstep : (∃ l, step = .makeDirectory l ∧ OnWay root l)
      ∨ ∀ l ∈ step.locations, Temporary root l) : Resembles root d d' := by
  refine ⟨h.limit, fun {l} hl => ?_⟩
  obtain ⟨m, rfl, hm⟩ | htemporary := hstep
  · cases h with
    | opened _ => exact .inl rfl
    | @made m name hreach hname =>
      by_cases hlm : l = m ++ [name]
      · rw [hlm]
        exact .inr ⟨hm, hname, Table.get?_insert_self _ _ _⟩
      · exact .inl (Table.get?_insert_ne _ _ hlm)
  · exact .inl (h.frame fun hmem => hl (htemporary l hmem))

namespace Resembles

variable (h : Resembles root d d')

include h

theorem trans (h' : Resembles root d' d'') : Resembles root d d'' := by
  refine ⟨h'.limit.trans h.limit, fun hl => ?_⟩
  obtain hsame | ⟨hway, hnone, hnew⟩ := h.nodes hl
  · obtain hsame' | ⟨hway, hnone, hnew⟩ := h'.nodes hl
    · exact .inl (hsame'.trans hsame)
    · exact .inr ⟨hway, hsame.symm.trans hnone, hnew⟩
  · obtain hsame' | ⟨-, hnone', -⟩ := h'.nodes hl
    · exact .inr ⟨hway, hnone, hsame'.trans hnew⟩
    · cases hnew.symm.trans hnone'

theorem record (hname : Shown name) :
    d'.nodes.get? (recordFile root path name) = d.nodes.get? (recordFile root path name) := by
  obtain hsame | ⟨hway, -, -⟩ := h.nodes (not_temporary_recordFile hname)
  · exact hsame
  · exact absurd hway (recordFile_not_onWay name)

theorem clear_iff (hl : OnWay root l) : d'.Clear l ↔ d.Clear l := by
  obtain ⟨path, hpath, hbelow⟩ := hl
  have hfile : ∀ p : Location, p <+: l → ∀ content,
      d'.nodes.get? p = some (.file content) ↔ d.nodes.get? p = some (.file content) := by
    intro p hp content
    obtain hsame | ⟨-, hnone, hnew⟩ :=
      h.nodes (OnWay.not_temporary ⟨path, hpath, hp.trans hbelow⟩)
    · rw [hsame]
    · simp [hnone, hnew]
  constructor
  · exact fun hclear p hne hp content hc => hclear p hne hp content ((hfile p hp content).2 hc)
  · exact fun hclear p hne hp content hc => hclear p hne hp content ((hfile p hp content).1 hc)

theorem find_record (hd : d.Grounded) (hd' : d'.Grounded) (hpath : Named path)
    (hname : Shown name) (hfits : d.Fits (recordFile root path name)) :
    d'.find (recordFile root path name) = d.find (recordFile root path name) :=
  hd.find_alike hd' h.limit hfits (h.record hname) (h.clear_iff ⟨path, hpath, List.prefix_refl _⟩)

end Resembles

/-! ## Stores that answer alike -/

/-- The store with another disk and serial number. -/
def withDisk (s : LocalStore) (d : Disk) (serial : Nat) : LocalStore :=
  { s with disk := d, serial := serial }

@[simp] theorem withDisk_disk (s : LocalStore) (d : Disk) (serial : Nat) :
    (s.withDisk d serial).disk = d := rfl

@[simp] theorem withDisk_root (s : LocalStore) (d : Disk) (serial : Nat) :
    (s.withDisk d serial).root = s.root := rfl

@[simp] theorem withDisk_verify (s : LocalStore) (d : Disk) (serial : Nat) :
    (s.withDisk d serial).verify = s.verify := rfl

/-- Reads whose locations are among those given have the same answers. -/
structure AnswersAlike (among : Location → Prop) (s t : LocalStore) : Prop where
  read (path : Path) (key : String) (h : among (recordFile s.root path key)) :
    t.read path key = s.read path key
  readRange (path : Path) (first last : String) (h : among (keysDirectory s.root path)) :
    t.readRange path first last = s.readRange path first last

theorem readRecord_congr (serial : Nat) (hfind : d.find l = s.disk.find l) (key : String) :
    (s.withDisk d serial).readRecord l key = s.readRecord l key := by
  rw [readRecord, readRecord, withDisk_disk, withDisk_verify, contentAt, contentAt, hfind]

theorem shown_of_mem_listKeys {keys : List String} (h : s.listKeys l = .ok keys)
    (hname : name ∈ keys) : Shown name := by
  rw [listKeys] at h
  split at h
  · cases h
    cases hname
  · cases h
  · cases h
    exact (List.mem_filter.1 (mem_sortNames.1 hname)).2

/-- What is listed are the names that are shown, in a directory that is found. -/
theorem listKeys_congr (serial : Nat) (hfind : d.find l = s.disk.find l)
    (hnodes : ∀ name, Shown name → d.nodes.get? (l ++ [name]) = s.disk.nodes.get? (l ++ [name])) :
    (s.withDisk d serial).listKeys l = s.listKeys l := by
  rw [listKeys, listKeys, withDisk_disk]
  cases hfound : s.disk.find l with
  | error e => rw [Disk.list, Disk.list, hfind, hfound]
  | ok node =>
    cases node with
    | file content => rw [Disk.list, Disk.list, hfind, hfound]
    | directory =>
      obtain ⟨names, hnames, hnodup, hmem⟩ := list_found hfound
      obtain ⟨names', hnames', hnodup', hmem'⟩ := list_found (hfind.trans hfound)
      rw [hnames, hnames']
      refine congrArg Except.ok (sortNames_eq_of_mem (hnodup'.filter _) (hnodup.filter _) ?_)
      intro name
      rw [List.mem_filter, List.mem_filter, hmem, hmem']
      exact and_congr_left fun hname => by rw [hnodes name hname]

theorem listKeys_missing (h : s.disk.find l = .error .notFound) : s.listKeys l = .ok [] := by
  rw [listKeys, list_missing h]

theorem listKeys_nothing (h : s.disk.find l = .ok .directory)
    (hnodes : ∀ name, Shown name → s.disk.nodes.get? (l ++ [name]) = none) :
    s.listKeys l = .ok [] := by
  obtain ⟨names, hnames, -, hmem⟩ := list_found h
  have hnil : names.filter (fun n => n.toList.head? != some '.') = [] :=
    List.filter_eq_nil_iff.2 fun name hname hshown => (hmem name).1 hname (hnodes name hshown)
  rw [listKeys, hnames]
  simp only [hnil, sortNames, List.mergeSort_nil]

theorem readAll_congr {keys : List String} (h : ∀ key ∈ keys,
    t.readRecord (recordFile t.root path key) key = s.readRecord (recordFile s.root path key) key) :
    t.readAll path keys = s.readAll path keys := by
  induction keys with
  | nil => rfl
  | cons key keys ih =>
    obtain ⟨hkey, hkeys⟩ := List.forall_mem_cons.1 h
    rw [readAll, readAll, hkey, ih hkeys]

/-- A range depends on the directory of the path and on the records in it. -/
theorem readRange_congr (serial : Nat) (hlimit : d.nameLimit = s.disk.nameLimit)
    (hfind : d.find (keysDirectory s.root path) = s.disk.find (keysDirectory s.root path))
    (hnodes : ∀ name, Shown name →
      d.nodes.get? (recordFile s.root path name) = s.disk.nodes.get? (recordFile s.root path name))
    (first last : String) :
    (s.withDisk d serial).readRange path first last = s.readRange path first last := by
  have hkeys := listKeys_congr serial hfind hnodes
  rw [readRange, readRange, withDisk_root, hkeys]
  cases hlist : s.listKeys (keysDirectory s.root path) with
  | error e => rfl
  | ok keys =>
    have hall : (s.withDisk d serial).readAll path (keys.filter (inRange first last))
        = s.readAll path (keys.filter (inRange first last)) := readAll_congr fun key hkey => by
      have hshown := shown_of_mem_listKeys hlist (List.mem_filter.1 hkey).1
      exact readRecord_congr serial (find_last_congr hlimit hfind (hnodes key hshown)) key
    simp only [hall]

/-- Whatever is refused is refused on every disk, so places with proper names decide. -/
theorem answersAlike_of_named {among : Location → Prop}
    (hread : ∀ path key, Named path → Shown key → among (recordFile s.root path key) →
      d.find (recordFile s.root path key) = s.disk.find (recordFile s.root path key))
    (hrange : ∀ path first last, Named path → among (keysDirectory s.root path) →
      (s.withDisk d serial).readRange path first last = s.readRange path first last) :
    AnswersAlike among s (s.withDisk d serial) := by
  refine ⟨fun path key h => ?_, fun path first last h => ?_⟩
  · rw [read, read, withDisk_root]
    cases hplace : checkPlace path key with
    | error e => rfl
    | ok _ =>
      obtain ⟨hpath, hkey⟩ := named_of_checkPlace hplace
      exact readRecord_congr serial (hread path key hpath (shown_of_isName hkey) h) key
  · cases hpath : checkPath path with
    | error e => rw [readRange, readRange, hpath]
    | ok _ => exact hrange path first last (named_of_checkPath hpath) h

section

variable (h : Resembles s.root s.disk d) (hs : s.disk.Grounded) (hd : d.Grounded) (serial : Nat)

include h hs hd

/-- A directory that is new lists nothing, as if it were still missing. -/
theorem Resembles.listKeys_new (hpath : Named path)
    (hfits : s.disk.Fits (keysDirectory s.root path))
    (hnone : s.disk.nodes.get? (keysDirectory s.root path) = none)
    (hnew : d.nodes.get? (keysDirectory s.root path) = some .directory) :
    s.listKeys (keysDirectory s.root path) = .ok []
      ∧ (s.withDisk d serial).listKeys (keysDirectory s.root path) = .ok [] := by
  constructor
  · have hreach : d.Reaches (s.root ++ path) := hd.reaches hnew
    have hclear := (h.clear_iff ⟨path, hpath, List.prefix_append _ _⟩).1 hreach.clear
    exact listKeys_missing (hclear.find_missing hfits hnone)
  · refine listKeys_nothing (s := s.withDisk d serial) (hd.find_node (hfits.congr h.limit) hnew) ?_
    intro name hname
    have hrecord : d.nodes.get? (recordFile s.root path name)
        = s.disk.nodes.get? (recordFile s.root path name) := h.record hname
    cases hnode : s.disk.nodes.get? (recordFile s.root path name) with
    | none => exact hrecord.trans hnode
    | some node =>
      -- what lies in the directory now was there before, and so was the directory
      have hreach : s.disk.Reaches (keysDirectory s.root path) := hs.reaches hnode
      have hdirectory := hreach _ (by simp [keysDirectory]) (List.prefix_refl _)
      cases hnone.symm.trans hdirectory

theorem Resembles.answersAlike : AnswersAlike s.disk.Fits s (s.withDisk d serial) := by
  refine answersAlike_of_named (fun path key hpath => h.find_record hs hd hpath)
    fun path first last hpath hfits => ?_
  obtain hsame | ⟨-, hnone, hnew⟩ :=
    h.nodes (OnWay.not_temporary ⟨path, hpath, List.prefix_refl _⟩)
  · have hclear := h.clear_iff ⟨path, hpath, List.prefix_append (s.root ++ path) [".keys"]⟩
    exact readRange_congr serial h.limit (hs.find_alike hd h.limit hfits hsame hclear)
      (fun name => h.record) first last
  · obtain ⟨hold, hnew⟩ := h.listKeys_new hs hd serial hpath hfits hnone hnew
    rw [readRange, readRange, withDisk_root, hold, hnew]
    rfl

end

/-- What temporary files hold makes no difference. -/
theorem answersAlike_of_temporary (hlimit : d.nameLimit = s.disk.nameLimit)
    (h : ∀ l, ¬Temporary s.root l → d.nodes.get? l = s.disk.nodes.get? l) (serial : Nat) :
    AnswersAlike (fun _ => True) s (s.withDisk d serial) := by
  have hway : ∀ path, Named path →
      d.find (keysDirectory s.root path) = s.disk.find (keysDirectory s.root path) :=
    fun path hpath => find_congr hlimit fun p _ hp => h p (OnWay.not_temporary ⟨path, hpath, hp⟩)
  have hrecord : ∀ path name, Shown name →
      d.nodes.get? (recordFile s.root path name)
        = s.disk.nodes.get? (recordFile s.root path name) :=
    fun path name hname => h _ (not_temporary_recordFile hname)
  exact answersAlike_of_named
    (fun path key hpath hkey _ => find_last_congr hlimit (hway path hpath) (hrecord path key hkey))
    fun path first last hpath _ =>
      readRange_congr serial hlimit (hway path hpath) (hrecord path) first last

/-! ## Writes that stop -/

/-- A write has taken some of its steps, the last one perhaps in part, and has left this store. -/
def Stops (s : LocalStore) (path : Path) (key : String) (value : Bytes) (taken : List DiskStep)
    (t : LocalStore) : Prop :=
  Cut (writeSteps s.root path key value s.serial) taken
    ∧ ∃ d, s.disk.runSteps taken = (none, d) ∧ t = s.withDisk d (s.serial + 1)

/-- The stores that come of writes, each complete or not, on a disk where everything lies in a
directory. -/
inductive Produced : LocalStore → Prop where
  | start {d : Disk} (hd : d.Grounded) (root : Location) (verify : Bool) (serial : Nat) :
      Produced ⟨d, root, verify, serial⟩
  | write {s t : LocalStore} {path : Path} {key : String} {value : Bytes} {taken : List DiskStep}
      (h : Produced s) (hplace : checkPlace path key = .ok ())
      (hstop : s.Stops path key value taken t) : Produced t

theorem Produced.grounded (h : s.Produced) : s.disk.Grounded := by
  induction h with
  | start hd _ _ _ => exact hd
  | write _ _ hstop ih =>
    obtain ⟨-, d, hrun, rfl⟩ := hstop
    exact ih.runSteps hrun

/-- A write that returns stops too, where a step fails or behind the last one. -/
theorem write_stops (s : LocalStore) (hplace : checkPlace path key = .ok ()) (value : Bytes) :
    ∃ taken, s.Stops path key value taken (s.write path key value).2 := by
  obtain ⟨taken, hcut, hrun⟩ := s.disk.exists_cut (writeSteps s.root path key value s.serial)
  refine ⟨taken, hcut, _, hrun, ?_⟩
  rw [write, hplace]
  simp only
  cases (s.disk.runSteps (writeSteps s.root path key value s.serial)).1 <;> rfl

theorem temporary_temporaryFile (root : Location) (hpath : Named path) (key : String)
    (serial : Nat) : Temporary root (temporaryFile root path key serial) :=
  ⟨path, key, serial, hpath, rfl⟩

/-- The step that makes a written record visible. -/
def renameStep (root : Location) (path : Path) (key : String) (serial : Nat) : DiskStep :=
  .rename (temporaryFile root path key serial) (recordFile root path key)

/-- A write takes all its steps, or only such as make directories on the way to the record or work
on the temporary file. -/
theorem taken_cases (hpath : Named path)
    (hcut : Cut (writeSteps root path key value serial) taken) :
    taken = writeSteps root path key value serial
      ∨ ∀ step ∈ taken, (∃ l, step = .makeDirectory l ∧ OnWay root l)
        ∨ ∀ l ∈ step.locations, Temporary root l := by
  have hsteps : writeSteps root path key value serial
      = (directorySteps (keysDirectory root path) ++
          [.createFile (temporaryFile root path key serial),
            .append (temporaryFile root path key serial) (Record.encode value),
            .sync (temporaryFile root path key serial)])
        ++ [.rename (temporaryFile root path key serial) (recordFile root path key)] := by
    rw [writeSteps, List.append_assoc]
    rfl
  have htemporary : ∀ l ∈ [temporaryFile root path key serial], Temporary root l :=
    List.forall_mem_singleton.2 (temporary_temporaryFile root hpath key serial)
  rw [hsteps] at hcut ⊢
  refine hcut.concat_rename.imp_right fun hcut =>
    hcut.forall_mem (fun l bytes bytes' h => ?_) fun step hstep => ?_
  · obtain ⟨m, h, -⟩ | h := h
    · cases h
    · exact .inr h
  · obtain hstep | hstep := List.mem_append.1 hstep
    · obtain ⟨l, rfl, hl⟩ := exists_of_mem_directorySteps hstep
      exact .inl ⟨l, rfl, path, hpath, hl⟩
    · simp only [List.mem_cons, List.not_mem_nil, or_false] at hstep
      obtain rfl | rfl | rfl := hstep <;> exact .inr htemporary

theorem eq_writeSteps_of_renamed (hpath : Named path) (hkey : isName key = true)
    (hcut : Cut (writeSteps root path key value serial) taken)
    (hrename : renameStep root path key serial ∈ taken) :
    taken = writeSteps root path key value serial := by
  obtain h | h := taken_cases hpath hcut
  · exact h
  · obtain ⟨l, h, -⟩ | h := h _ hrename
    · cases h
    · exact absurd (h _ (List.mem_cons_of_mem _ List.mem_cons_self))
        (not_temporary_recordFile (shown_of_isName hkey))

theorem resembles_of_not_renamed (hpath : Named path)
    (hcut : Cut (writeSteps root path key value serial) taken)
    (hrename : renameStep root path key serial ∉ taken)
    (hrun : d.runSteps taken = (none, d')) : Resembles root d d' := by
  obtain rfl | h := taken_cases hpath hcut
  · exact absurd (List.mem_append_right _ (by simp [renameStep])) hrename
  · exact runSteps_invariant (P := Resembles root d) hrun
      (fun step hstep _ _ hran hd => hd.trans (resembles_of_ran hran (h step hstep)))
      (resembles_refl root d)

/-- A write touches no temporary file but its own. -/
theorem temporary_kept (hpath : Named path) (hkey : isName key = true)
    (hcut : Cut (writeSteps root path key value serial) taken)
    (hrun : d.runSteps taken = (none, d')) (hl : Temporary root l)
    (hne : l ≠ temporaryFile root path key serial) : d'.nodes.get? l = d.nodes.get? l := by
  refine runSteps_frame hrun (hcut.forall_mem (fun _ _ _ h => h) fun step hstep hmem => ?_)
  obtain hway | rfl | rfl := locations_writeSteps hstep hmem
  · exact OnWay.not_temporary ⟨path, hpath, hway⟩ hl
  · exact hne rfl
  · exact not_temporary_recordFile (shown_of_isName hkey) hl

/-- A write that stops before its record is renamed has not happened, and one that stops behind has
happened as a whole. Of the temporary files that are left, none is read or listed or changed by
another write. -/
theorem write_all_or_nothing (hs : s.Produced) (hplace : checkPlace path key = .ok ())
    (value : Bytes) :
    (∃ taken, s.Stops path key value taken (s.write path key value).2)
      ∧ ∀ taken t, s.Stops path key value taken t →
        (renameStep s.root path key s.serial ∉ taken → AnswersAlike s.disk.Fits s t)
        ∧ (renameStep s.root path key s.serial ∈ taken → s.write path key value = (.ok (), t))
        ∧ (∀ l, Temporary s.root l → l ≠ temporaryFile s.root path key s.serial →
          t.disk.nodes.get? l = s.disk.nodes.get? l)
        ∧ (∀ d serial, d.nameLimit = t.disk.nameLimit →
          (∀ l, ¬Temporary t.root l → d.nodes.get? l = t.disk.nodes.get? l) →
          AnswersAlike (fun _ => True) t (t.withDisk d serial))
        ∧ t.Produced := by
  obtain ⟨hpath, hkey⟩ := named_of_checkPlace hplace
  refine ⟨s.write_stops hplace value, fun taken t hstop => ?_⟩
  obtain ⟨hcut, d, hrun, rfl⟩ := id hstop
  have hd := hs.grounded.runSteps hrun
  refine ⟨fun hrename => ?_, fun hrename => ?_, fun l hl hne => ?_,
    fun d serial hlimit h => answersAlike_of_temporary hlimit h serial, hs.write hplace hstop⟩
  · exact (resembles_of_not_renamed hpath hcut hrename hrun).answersAlike hs.grounded hd _
  · rw [eq_writeSteps_of_renamed hpath hkey hcut hrename] at hrun
    rw [write, hplace]
    simp only [hrun]
    rfl
  · exact temporary_kept hpath hkey hcut hrun hl hne

/-- A write that replaces a record stops when the temporary file holds a part of it, on a disk where
names have at most 255 bytes. -/
theorem write_all_or_nothing_partway :
    let start : LocalStore := ⟨.empty (some 255), ["data"], true, 0⟩
    let written := writeSteps ["data"] ["a"] "b" [1] 0
    let s := start.withDisk (start.disk.runSteps written).2 1
    let temporary := temporaryFile ["data"] ["a"] "b" 1
    let taken := directorySteps (keysDirectory ["data"] ["a"])
      ++ [.createFile temporary, .append temporary ((Record.encode [2, 3]).take 7)]
    let t := s.withDisk (s.disk.runSteps taken).2 2
    s.Produced ∧ checkPlace ["a"] "b" = .ok () ∧ s.Stops ["a"] "b" [2, 3] taken t
      ∧ (t.disk.nodes.get? temporary).isSome = true
      ∧ t.read ["a"] "b" = s.read ["a"] "b"
      ∧ t.readRange ["a"] "a" "z" = s.readRange ["a"] "a" "z" := by
  intro start written s temporary taken t
  have hwritten : (start.disk.runSteps written).1 = none := by decide +kernel +revert
  have htaken : (s.disk.runSteps taken).1 = none := by decide +kernel +revert
  have hpart : (t.disk.nodes.get? temporary).isSome = true := by decide +kernel +revert
  have hfits : ∀ name ∈ recordFile ["data"] ["a"] "b", s.disk.tooLong name = false := by
    decide +kernel +revert
  have hplace : checkPlace ["a"] "b" = .ok () := checkPlace_eq_ok (by decide) (by decide)
  have hs : s.Produced := .write (.start (grounded_empty _) ["data"] true 0) hplace
    ⟨cut_self written, _, runSteps_eq_of_fst hwritten, rfl⟩
  have hcut : Cut (writeSteps ["data"] ["a"] "b" [2, 3] 1) taken :=
    .append_left _ (.take _ (.partway _ _ 7 _))
  have hstop : s.Stops ["a"] "b" [2, 3] taken t := ⟨hcut, _, runSteps_eq_of_fst htaken, rfl⟩
  have hrename : renameStep ["data"] ["a"] "b" 1 ∉ taken := by
    simp [taken, renameStep, directorySteps]
  have halike := ((write_all_or_nothing hs hplace [2, 3]).2 taken t hstop).1 hrename
  exact ⟨hs, hplace, hstop, hpart, halike.read _ _ hfits,
    halike.readRange _ _ _ fun name hname => hfits name (List.mem_append_left _ hname)⟩

/-! ## Names that are too long -/

theorem isName_replicate (n : Nat) :
    isName (String.ofList (List.replicate (n + 1) 'x')) = true := by
  rw [isName, String.toList_ofList, List.replicate_succ]
  simp

theorem utf8ByteSize_replicate (n : Nat) :
    (String.ofList (List.replicate n 'x')).utf8ByteSize = n := by
  induction n with
  | zero => rfl
  | succ n ih =>
    have hlast : (String.ofList ['x']).utf8ByteSize = 1 := by decide
    rw [List.replicate_succ', String.ofList_append, String.utf8ByteSize_append, ih, hlast]

/-- An empty disk where names have at most 255 bytes. -/
def shortNames : LocalStore := ⟨.empty (some 255), [], true, 0⟩

/-- What a write of a record with a long name leaves there. -/
def directoriesOnly : Disk :=
  ⟨(Table.empty.insert ["db"] .directory).insert ["db", ".keys"] .directory, some 255⟩

section Long

variable (hname : isName name = true) (hlong : 255 < name.utf8ByteSize)

include hname hlong

theorem write_long (value : Bytes) : shortNames.write ["db"] name value
    = (.error (ioError (recordFile [] ["db"] name) .nameTooLong),
      shortNames.withDisk directoriesOnly 1) := by
  have hdirectories : shortNames.disk.runSteps (directorySteps (keysDirectory [] ["db"]))
      = (none, directoriesOnly) := rfl
  have htemporary : directoriesOnly.find (temporaryFile [] ["db"] name 0)
      = .error .nameTooLong := by
    refine find_tooLong rfl ?_
    rw [tooLong]
    refine decide_eq_true ?_
    simp only [String.utf8ByteSize_append]
    omega
  have hrun : shortNames.disk.runSteps
      (writeSteps shortNames.root ["db"] name value shortNames.serial)
        = (some .nameTooLong, directoriesOnly) := by
    change shortNames.disk.runSteps (writeSteps [] ["db"] name value 0) = _
    rw [writeSteps, runSteps_append, hdirectories]
    simp only [runSteps, DiskStep.run, htemporary]
  rw [write, checkPlace_eq_ok (by decide) hname]
  simp only [hrun]
  rfl

theorem read_long : shortNames.read ["db"] name = .ok none
    ∧ (shortNames.withDisk directoriesOnly 1).read ["db"] name
      = .error (ioError (recordFile [] ["db"] name) .nameTooLong) := by
  have hplace : checkPlace ["db"] name = .ok () := checkPlace_eq_ok (by decide) hname
  have hmissing : shortNames.disk.find (recordFile [] ["db"] name) = .error .notFound :=
    find_below_error (by rfl) name
  have htooLong : directoriesOnly.find (recordFile [] ["db"] name) = .error .nameTooLong :=
    find_tooLong rfl (by rw [tooLong]; exact decide_eq_true hlong)
  constructor
  · rw [read, hplace]
    change shortNames.readRecord (recordFile [] ["db"] name) name = _
    rw [readRecord, contentAt, hmissing]
  · rw [read, hplace]
    change (shortNames.withDisk directoriesOnly 1).readRecord (recordFile [] ["db"] name) name = _
    rw [readRecord, withDisk_disk, contentAt, htooLong]

end Long

/-- A write fails with the directories of its record made, since the name of its temporary file is
too long. The name of the record is too long as well, so it counted as missing before, when nothing
was there, and does not any more. -/
theorem stopped_write_seen :
    let name := String.ofList (List.replicate 256 'x')
    let t := (shortNames.write ["db"] name [118]).2
    shortNames.Produced ∧ checkPlace ["db"] name = .ok ()
      ∧ (∃ taken, shortNames.Stops ["db"] name [118] taken t ∧ renameStep [] ["db"] name 0 ∉ taken)
      ∧ shortNames.read ["db"] name = .ok none
      ∧ t.read ["db"] name = .error (ioError (recordFile [] ["db"] name) .nameTooLong) := by
  intro name t
  have hname : isName name = true := isName_replicate 255
  have hsize : name.utf8ByteSize = 256 := utf8ByteSize_replicate 256
  have hlong : 255 < name.utf8ByteSize := by omega
  have ht : t = shortNames.withDisk directoriesOnly 1 :=
    congrArg Prod.snd (write_long hname hlong [118])
  obtain ⟨hmissing, hseen⟩ := read_long hname hlong
  refine ⟨.start (grounded_empty _) _ _ _, checkPlace_eq_ok (by decide) hname,
    ⟨directorySteps (keysDirectory [] ["db"]), ?_, fun hmem => ?_⟩, hmissing, ?_⟩
  · exact ⟨cut_append _ _, directoriesOnly, rfl, ht⟩
  · obtain ⟨l, hl, -⟩ := exists_of_mem_directorySteps hmem
    cases hl
  · rw [ht]
    exact hseen

end LocalStore

end Goalbase
