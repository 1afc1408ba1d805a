import Goalbase.Proofs.Contents
import Goalbase.Proofs.Disks
import Goalbase.Store.Local
import Goalbase.Store.Memory

/-!
# Goalbase.Proofs.Stores

The store in memory and the store on a disk are the same map.

`MemoryStore.Holds` and `LocalStore.Holds` say which map a state stands for, and both stores mirror
it (`MemoryStore.mirrors`, `LocalStore.mirrors`). On the disk a path has a directory and each of its
records a file in it. Since no name starts with a dot, the file of a record is on the way to no
directory, so that a write changes one record and keeps every way open. `stores_agree` puts the two
together: from the start on they answer every call alike, with what was written last.
-/

namespace Goalbase

theorem sortNames_ascending {names : List String} (h : names.Nodup) :
    (sortNames names).Pairwise (· < ·) := by
  have hsorted : (sortNames names).Pairwise fun a b => decide (a ≤ b) = true :=
    List.pairwise_mergeSort
      (fun a b c hab hbc => by
        simp only [decide_eq_true_eq] at *
        exact le_trans hab hbc)
      (fun a b => by simpa using le_total a b) names
  have hdistinct : (sortNames names).Pairwise (· ≠ ·) :=
    ((List.mergeSort_perm names _).nodup_iff).2 h
  exact (hsorted.and hdistinct).imp fun hab =>
    lt_of_le_of_ne (of_decide_eq_true hab.1) hab.2

theorem mem_sortNames {names : List String} {name : String} :
    name ∈ sortNames names ↔ name ∈ names := List.mem_mergeSort

/-! ## Memory -/

namespace MemoryStore

def Holds (s : MemoryStore) (m : Contents Bytes) : Prop :=
  ∀ path key, s.records.get? (path, key) = m path key

theorem nodup_keysOf (s : MemoryStore) (path : Path) : (s.keysOf path).Nodup := by
  refine List.Nodup.map_on (fun p hp q hq h => ?_) (s.records.distinct.filter _)
  have hp := (List.mem_filter.1 hp).2
  have hq := (List.mem_filter.1 hq).2
  exact Prod.ext ((beq_iff_eq.1 hp).trans (beq_iff_eq.1 hq).symm) h

theorem mem_keysOf (s : MemoryStore) {path : Path} {key : String} :
    key ∈ s.keysOf path ↔ s.records.get? (path, key) ≠ none := by
  rw [← Table.mem_keys, keysOf, List.mem_map]
  constructor
  · rintro ⟨⟨p, k⟩, hp, rfl⟩
    obtain ⟨hp, heq⟩ := List.mem_filter.1 hp
    exact beq_iff_eq.1 heq ▸ hp
  · exact fun h => ⟨(path, key), List.mem_filter.2 ⟨h, beq_self_eq_true _⟩, rfl⟩

theorem Holds.readRange_eq {s : MemoryStore} {m : Contents Bytes} (h : s.Holds m) {path : Path}
    (hpath : Named path) (first last : String) :
    ∃ es, s.readRange path first last = .ok es ∧ m.Lists path first last es := by
  let keys := sortNames ((s.keysOf path).filter (inRange first last))
  refine ⟨keys.filterMap fun key => (m path key).map fun value => (key, value), ?_, ?_⟩
  · rw [readRange, hpath.checkPath_eq]
    refine congrArg Except.ok (List.filterMap_congr fun key _ => ?_)
    rw [h path key]
    cases m path key <;> rfl
  · refine Contents.lists_filterMap (sortNames_ascending ((s.nodup_keysOf path).filter _))
      (fun key hkey => ?_) fun key value hvalue hrange => ?_
    · exact (List.mem_filter.1 (mem_sortNames.1 hkey)).2
    · refine mem_sortNames.2 (List.mem_filter.2 ⟨s.mem_keysOf.2 ?_, hrange⟩)
      rw [h path key, hvalue]
      exact Option.some_ne_none value

theorem Holds.insert {s : MemoryStore} {m : Contents Bytes} (h : s.Holds m) (path : Path)
    (key : String) (value : Bytes) :
    Holds ⟨s.records.insert (path, key) value⟩ (m.put path key value) := by
  intro p k
  rw [Table.get?_insert, Contents.put, h p k]
  simp only [Prod.mk.injEq]

theorem mirrors : KeyStore.Mirrors MemoryStore Holds where
  refusesRead h s := by
    change s.read _ _ = _
    rw [read, h]
  refusesRange h s first last := by
    change s.readRange _ first last = _
    rw [readRange, h]
  refusesWrite h s value := by
    change s.write _ _ value = _
    rw [write, h]
  reads {s m} hs path key hpath hkey := by
    change s.read path key = _
    rw [read, checkPlace_eq_ok hpath hkey, hs path key]
  readsRange hs _ hpath first last := hs.readRange_eq hpath first last
  writes {s m} hs path key hpath hkey value := by
    refine ⟨⟨s.records.insert (path, key) value⟩, ?_, fun _ => hs.insert path key value⟩
    change s.write path key value = _
    rw [write, checkPlace_eq_ok hpath hkey]

end MemoryStore

/-! ## Disk -/

namespace LocalStore

variable {root : Location} {path : Path} {key : String}

theorem recordFile_inj {p p' : Path} {k k' : String} :
    recordFile root p k = recordFile root p' k' ↔ p = p' ∧ k = k' := by
  constructor
  · intro h
    obtain ⟨hdirectory, hkey⟩ := List.append_inj' h rfl
    exact ⟨List.append_cancel_left (List.append_cancel_right hdirectory), List.singleton_inj.1 hkey⟩
  · rintro ⟨rfl, rfl⟩
    rfl

/-- The file of a record is on the way to no directory, since no segment is called `.keys`. -/
theorem recordFile_not_on_way {p : Path} (hpath : Named path) (k : String) :
    ¬recordFile root p k <+: keysDirectory root path := by
  intro h
  have h : p ++ [".keys", k] <+: path ++ [".keys"] := by
    simpa [recordFile, keysDirectory, List.append_assoc, List.prefix_append_right_inj] using h
  have hlength := h.length_le
  simp only [List.length_append, List.length_cons, List.length_nil] at hlength
  -- the directory `.keys` of the file is not the one at the end, so it would be a segment
  have hkeys : p ++ [".keys"] <+: path :=
    List.prefix_of_prefix_length_le ((List.prefix_append _ [k]).trans (by simpa using h))
      (List.prefix_append path [".keys"]) (by simp; omega)
  have hname := hpath ".keys" (hkeys.subset (List.mem_append_right _ (List.mem_singleton_self _)))
  exact absurd hname (by decide)

theorem isName_of_dot (rest : String) : isName ("." ++ rest) = false := by
  rw [isName, String.toList_append]
  rfl

theorem head?_ne_dot {name : String} (h : isName name = true) :
    (name.toList.head? != some '.') = true := by
  rw [isName] at h
  split at h
  · cases h
  · rename_i c cs hname
    rw [hname]
    simpa using (Bool.and_eq_true_iff.1 h).1

/-- Every path can be made, and the file of a place is there when the place has a value. -/
structure Holds (s : LocalStore) (m : Contents Bytes) : Prop where
  limit : s.disk.nameLimit = none
  clear {path : Path} (hpath : Named path) : s.disk.Clear (keysDirectory s.root path)
  record {path : Path} (hpath : Named path) (key : String) :
    s.disk.nodes.get? (recordFile s.root path key)
      = (m path key).map fun value => .file (Record.encode value)
  reached {path : Path} {key : String} {value : Bytes} (h : m path key = some value) :
    s.disk.Reaches (keysDirectory s.root path)
  named {path : Path} {key : String} {value : Bytes} (h : m path key = some value) :
    Named path ∧ isName key = true
  fits {path : Path} {key : String} {value : Bytes} (h : m path key = some value) :
    value.length < Record.lengthLimit

namespace Holds

variable {s : LocalStore} {m : Contents Bytes}

/-- A path whose directory is missing has no records. -/
theorem eq_none (h : s.Holds m) (hmissing : s.disk.find (keysDirectory s.root path)
    = .error .notFound) (key : String) : m path key = none := by
  cases hvalue : m path key with
  | none => rfl
  | some value => exact nomatch ((h.reached hvalue).find_eq h.limit).symm.trans hmissing

theorem readRecord_eq (h : s.Holds m) (hpath : Named path) (key : String) :
    s.readRecord (recordFile s.root path key) key = .ok (m path key) := by
  obtain hreach | hmissing := (h.clear hpath).reaches_or h.limit
  · have hrecord : s.disk.nodes.get? (keysDirectory s.root path ++ [key]) = _ := h.record hpath key
    rw [readRecord, recordFile, hreach.contentAt_child h.limit, hrecord]
    cases hvalue : m path key with
    | none => rfl
    | some value => simp only [Option.map_some, Record.decode?_encode s.verify (h.fits hvalue)]
  · rw [readRecord, recordFile, Disk.contentAt_missing h.limit hmissing, h.eq_none hmissing]

theorem readAll_eq (h : s.Holds m) (hpath : Named path) (keys : List String) :
    s.readAll path keys
      = .ok (keys.filterMap fun key => (m path key).map fun value => (key, value)) := by
  induction keys with
  | nil => rfl
  | cons key rest ih =>
    rw [readAll, h.readRecord_eq hpath key, ih, List.filterMap_cons]
    cases m path key <;> rfl

/-- The listed keys are those with a record. -/
theorem listKeys_eq (h : s.Holds m) (hpath : Named path) :
    ∃ keys, s.listKeys (keysDirectory s.root path) = .ok keys ∧ keys.Pairwise (· < ·)
      ∧ ∀ key value, m path key = some value → key ∈ keys := by
  obtain hreach | hmissing := (h.clear hpath).reaches_or h.limit
  · obtain ⟨names, hnames, hnodup, hmem⟩ := Disk.list_children h.limit hreach
    refine ⟨_, by rw [listKeys, hnames], sortNames_ascending (hnodup.filter _), ?_⟩
    intro key value hvalue
    refine mem_sortNames.2 (List.mem_filter.2 ⟨(hmem key).2 ?_, ?_⟩)
    · have hrecord : s.disk.nodes.get? (keysDirectory s.root path ++ [key]) = _ :=
        h.record hpath key
      rw [hrecord, hvalue]
      exact Option.some_ne_none _
    · exact head?_ne_dot (h.named hvalue).2
  · refine ⟨[], by rw [listKeys, Disk.list_missing hmissing], .nil, fun key value hvalue => ?_⟩
    rw [h.eq_none hmissing] at hvalue
    cases hvalue

theorem readRange_eq (h : s.Holds m) (hpath : Named path) (first last : String) :
    ∃ es, s.readRange path first last = .ok es ∧ m.Lists path first last es := by
  obtain ⟨names, hnames, hascending, hall⟩ := h.listKeys_eq hpath
  rw [readRange, hpath.checkPath_eq]
  by_cases hlt : first < last
  · have hkeys := hascending.filter (inRange first last)
    refine ⟨_, ?_, Contents.lists_filterMap hkeys (fun key hkey => (List.mem_filter.1 hkey).2)
      fun key value hvalue hrange => List.mem_filter.2 ⟨hall key value hvalue, hrange⟩⟩
    simp only [if_pos hlt, hnames, h.readAll_eq hpath]
  · exact ⟨[], if_neg hlt, Contents.lists_nil m path hlt⟩

/-- The disk after a write: the directories of the path are there, the record is new and the
temporary file is gone. -/
theorem runSteps_write (h : s.Holds m) (hpath : Named path) (hkey : isName key = true)
    (value : Bytes) (serial : Nat) :
    ∃ opened after, s.disk.runSteps (writeSteps s.root path key value serial) = (none, after)
      ∧ Disk.Opened s.disk opened (keysDirectory s.root path) ∧ after.nameLimit = none
      ∧ ∀ l, after.nodes.get? l = if l = recordFile s.root path key
          then some (.file (Record.encode value)) else opened.nodes.get? l := by
  obtain ⟨opened, hdirectories, hopened⟩ := Disk.runSteps_directories h.limit (h.clear hpath)
  let temporary := "." ++ key ++ "." ++ Identifier.ofSerial serial ++ ".tmp"
  have htemporaryName : isName temporary = false := by
    simp only [temporary, String.append_assoc]
    exact isName_of_dot _
  have hfile : ∀ name, opened.nodes.get? (keysDirectory s.root path ++ [name])
      = (m path name).map fun value => .file (Record.encode value) := fun name =>
    (hopened.frame _ (recordFile_not_on_way hpath name)).trans (h.record hpath name)
  -- the temporary name is no key, so that nothing can lie there yet
  have htemporary : opened.nodes.get? (keysDirectory s.root path ++ [temporary]) = none := by
    rw [hfile]
    cases hvalue : m path temporary with
    | none => rfl
    | some value =>
      have hkey := (h.named hvalue).2
      rw [htemporaryName] at hkey
      cases hkey
  have htarget : opened.nodes.get? (keysDirectory s.root path ++ [key]) ≠ some .directory := by
    rw [hfile]
    cases m path key <;> exact fun e => nomatch e
  have hne : key ≠ temporary := by
    rintro e
    rw [e, htemporaryName] at hkey
    cases hkey
  obtain ⟨after, hreplace, hlimit, hafter⟩ := Disk.runSteps_replace (hopened.limit.trans h.limit)
    hopened.reaches htemporary htarget hne (Record.encode value)
  refine ⟨opened, after, ?_, hopened, hlimit, hafter⟩
  rw [writeSteps, Disk.runSteps_append, hdirectories]
  exact hreplace

/-- Such a disk holds the map with the new value. -/
theorem written (h : s.Holds m) (hpath : Named path) (hkey : isName key = true) {value : Bytes}
    (hfits : value.length < Record.lengthLimit) {opened after : Disk}
    (hopened : Disk.Opened s.disk opened (keysDirectory s.root path))
    (hlimit : after.nameLimit = none)
    (hafter : ∀ l, after.nodes.get? l = if l = recordFile s.root path key
      then some (.file (Record.encode value)) else opened.nodes.get? l) (serial : Nat) :
    Holds { s with disk := after, serial := serial } (m.put path key value) := by
  -- the new file is on no way, so that every way is as it was when the directories had been made
  have hway : ∀ {p : Path}, Named p → ∀ l : Location, l <+: keysDirectory s.root p →
      after.nodes.get? l = opened.nodes.get? l := by
    intro p hp l hl
    rw [hafter, if_neg]
    rintro rfl
    exact recordFile_not_on_way hp key hl
  exact {
    limit := hlimit
    clear := fun hp l hne hl => by
      rw [hway hp l hl]
      exact hopened.clear (h.clear hp) l hne hl
    record := fun {p} hp k => by
      change after.nodes.get? (recordFile s.root p k) = _
      rw [hafter, hopened.frame _ (recordFile_not_on_way hpath k), h.record hp k, Contents.put]
      simp only [recordFile_inj]
      split <;> rfl
    reached := fun hv => by
      obtain ⟨rfl, rfl, rfl⟩ | hv := Contents.of_put_eq_some hv
      · exact hopened.reaches.congr (hway hpath)
      · exact (hopened.preserves (h.reached hv)).congr (hway (h.named hv).1)
    named := fun hv => by
      obtain ⟨rfl, rfl, rfl⟩ | hv := Contents.of_put_eq_some hv
      · exact ⟨hpath, hkey⟩
      · exact h.named hv
    fits := fun hv => by
      obtain ⟨rfl, rfl, rfl⟩ | hv := Contents.of_put_eq_some hv
      · exact hfits
      · exact h.fits hv }

theorem write_eq (h : s.Holds m) (hpath : Named path) (hkey : isName key = true)
    (value : Bytes) :
    ∃ next, s.write path key value = (.ok (), next)
      ∧ (value.length < Record.lengthLimit → next.Holds (m.put path key value)) := by
  obtain ⟨opened, after, hrun, hopened, hlimit, hafter⟩ :=
    h.runSteps_write hpath hkey value s.serial
  refine ⟨{ s with disk := after, serial := s.serial + 1 }, ?_, fun hfits =>
    h.written hpath hkey hfits hopened hlimit hafter _⟩
  rw [write, checkPlace_eq_ok hpath hkey]
  simp only [hrun]

end Holds

theorem mirrors : KeyStore.Mirrors LocalStore Holds where
  refusesRead h s := by
    change s.read _ _ = _
    rw [read, h]
  refusesRange h s first last := by
    change s.readRange _ first last = _
    rw [readRange, h]
  refusesWrite h s value := by
    change s.write _ _ value = _
    rw [write, h]
  reads {s m} hs path key hpath hkey := by
    change s.read path key = _
    rw [read, checkPlace_eq_ok hpath hkey]
    exact hs.readRecord_eq hpath key
  readsRange hs _ hpath first last := hs.readRange_eq hpath first last
  writes hs _ _ hpath hkey value := hs.write_eq hpath hkey value

end LocalStore

/-! ## From the start on -/

theorem MemoryStore.holds_empty : empty.Holds .empty := fun _ _ => rfl

/-- Names may have any length, no file is on the way to a directory and nothing lies below it. -/
structure Disk.Fresh (d : Disk) (root : Location) : Prop where
  limit : d.nameLimit = none
  clear : d.Clear root
  nothing : ∀ l : Location, l ≠ [] → d.nodes.get? (root ++ l) = none

theorem Disk.fresh_empty : (empty none).Fresh [] :=
  ⟨rfl, fun _ _ _ _ => nofun, fun _ _ => rfl⟩

theorem LocalStore.holds_fresh {d : Disk} {root : Location} (h : d.Fresh root) (verify : Bool)
    (serial : Nat) : LocalStore.Holds ⟨d, root, verify, serial⟩ .empty where
  limit := h.limit
  clear {path} _ p hne hp := by
    rw [keysDirectory, List.append_assoc] at hp
    obtain hroot | ⟨l, rfl⟩ := List.prefix_or_prefix_of_prefix hp (List.prefix_append root _)
    · exact h.clear p hne hroot
    · by_cases hl : l = []
      · rw [hl, List.append_nil] at hne ⊢
        exact h.clear root hne (List.prefix_refl root)
      · rw [h.nothing l hl]
        exact nofun
  record {path} _ key := by
    rw [recordFile, keysDirectory, List.append_assoc, List.append_assoc]
    exact h.nothing _ (by simp)
  reached h := nomatch h
  named h := nomatch h
  fits h := nomatch h

/-- After any calls the two stores have given the same answers and give the same one to the next
call: the one it deserves from what was written last. A refused call changes neither of them. -/
theorem stores_agree {disk : Disk} {root : Location} (hdisk : disk.Fresh root) (verify : Bool)
    (serial : Nat) {earlier : List StoreCall} (hearlier : ∀ call ∈ earlier, call.Fits)
    (call : StoreCall) :
    let inMemory := KeyStore.run MemoryStore.empty earlier
    let onDisk := KeyStore.run (⟨disk, root, verify, serial⟩ : LocalStore) earlier
    inMemory.1 = onDisk.1
      ∧ (KeyStore.perform inMemory.2 call).1 = (KeyStore.perform onDisk.2 call).1
      ∧ (lastWritten onDisk.1).Answers call (KeyStore.perform onDisk.2 call).1
      ∧ ∀ e, call.Refused e → (KeyStore.perform inMemory.2 call).2 = inMemory.2
        ∧ (KeyStore.perform onDisk.2 call).2 = onDisk.2 := by
  intro inMemory onDisk
  have hhistory : inMemory.1 = onDisk.1 :=
    MemoryStore.mirrors.history_eq LocalStore.mirrors MemoryStore.holds_empty
      (LocalStore.holds_fresh hdisk verify serial) hearlier
  have hmemory := MemoryStore.mirrors.answers
    (MemoryStore.mirrors.holds_run MemoryStore.holds_empty hearlier) call
  have hlocal := LocalStore.mirrors.answers
    (LocalStore.mirrors.holds_run (LocalStore.holds_fresh hdisk verify serial) hearlier) call
  refine ⟨hhistory, ?_, hlocal, fun e he =>
    ⟨MemoryStore.mirrors.refused he _, LocalStore.mirrors.refused he _⟩⟩
  have hmemory : (lastWritten onDisk.1).Answers call (KeyStore.perform inMemory.2 call).1 :=
    hhistory ▸ hmemory
  exact hmemory.unique hlocal

/-- A key is overwritten, another one lies in a segment of its name, and a refused write is passed
over. -/
theorem stores_agree_overwritten :
    let earlier : List StoreCall := [.write ["a"] "b" [1], .write ["a", "b"] "c" [2],
      .write ["a"] "b" [3], .write ["a", ".."] "b" [4]]
    let call : StoreCall := .readRange ["a"] "a" "c"
    let inMemory := KeyStore.run MemoryStore.empty earlier
    let onDisk := KeyStore.run (⟨.empty none, [], true, 0⟩ : LocalStore) earlier
    ((Disk.empty none).Fresh [] ∧ ∀ call ∈ earlier, call.Fits)
      ∧ lastWritten onDisk.1 ["a"] "b" = some [3]
      ∧ (KeyStore.perform inMemory.2 call).1 = (KeyStore.perform onDisk.2 call).1
      ∧ (lastWritten onDisk.1).Answers call (KeyStore.perform onDisk.2 call).1 := by
  intro earlier call inMemory onDisk
  have hfits : ∀ call ∈ earlier, call.Fits := by simp [earlier, StoreCall.Fits, Record.lengthLimit]
  obtain ⟨hhistory, hsame, hanswer, -⟩ := stores_agree Disk.fresh_empty true 0 hfits call
  refine ⟨⟨Disk.fresh_empty, hfits⟩, ?_, hsame, hanswer⟩
  rw [← hhistory]
  decide

end Goalbase
