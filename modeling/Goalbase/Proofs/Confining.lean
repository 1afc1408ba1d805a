import Goalbase.Proofs.Stores
import Goalbase.Proofs.Touching

/-!
# Goalbase.Proofs.Confining

Records stay below the root, each in a file of its own.

A file system is given the text of a path and reads it as `components`: empty pieces and single dots
say nothing, two dots go up, an absolute name starts anew. What is checked of segments and keys is
what makes each of them one ordinary component (`components_push`), so the text of a record's file
means the location of the model, below whatever the root's text means. Locations of different
records differ, and since no name starts with a dot, a record's file is neither in the way of
another record nor one of the temporary files (`records_confined`).
-/

namespace Goalbase

/-! ## Path texts -/

/-- A part of a path as a file system reads it. -/
inductive Component where
  | root
  | current
  | parent
  | ordinary (name : String)
  deriving DecidableEq

/-- A name that means one component, with either kind of slash as the separator. -/
structure Ordinary (name : String) : Prop where
  ne_empty : name ≠ ""
  ne_current : name ≠ "."
  ne_parent : name ≠ ".."
  slash : '/' ∉ name.toList
  backslash : '\\' ∉ name.toList

namespace PathText

def pieces (text : String) : List (List Char) := text.toList.splitOn '/'

def component? (piece : List Char) : Option Component :=
  if piece = [] ∨ piece = ['.'] then none
  else if piece = ['.', '.'] then some .parent
  else some (.ordinary (.ofList piece))

/-- What the beginning of a text says. -/
def lead (text : String) : List Component :=
  if text.toList.head? = some '/' then [.root]
  else if (pieces text).head? = some ['.'] then [.current]
  else []

def components (text : String) : List Component :=
  lead text ++ (pieces text).filterMap component?

/-- Goes on with a name, behind a slash where there is none yet; an absolute name starts anew. -/
def push (text name : String) : String :=
  if name.toList.head? = some '/' then name
  else if text.toList.getLastD '/' = '/' then text ++ name
  else text ++ "/" ++ name

variable {text text' name : String}

theorem component?_ordinary (h : Ordinary name) :
    component? name.toList = some (.ordinary name) := by
  have hne : ¬(name.toList = [] ∨ name.toList = ['.']) := by
    rintro (he | he)
    · exact h.ne_empty (String.toList_eq_nil_iff.1 he)
    · exact h.ne_current (String.toList_inj.1 he)
  have hup : name.toList ≠ ['.', '.'] := fun he => h.ne_parent (String.toList_inj.1 he)
  rw [component?, if_neg hne, if_neg hup, String.ofList_toList]

/-- One piece more is one component more. -/
theorem components_of_pieces {ps : List (List Char)} (hne : ps ≠ []) (hname : Ordinary name)
    (hhead : text'.toList.head? = text.toList.head?)
    (htext : pieces text = ps ∨ pieces text = ps ++ [[]])
    (htext' : pieces text' = ps ++ [name.toList]) :
    components text' = components text ++ [.ordinary name] := by
  have hfirst : (pieces text).head? = ps.head? ∧ (pieces text).filterMap component?
      = ps.filterMap component? := by
    obtain h | h := htext
    · rw [h]
      exact ⟨rfl, rfl⟩
    · rw [h, List.head?_append_of_ne_nil _ hne, List.filterMap_append]
      exact ⟨rfl, List.append_nil _⟩
  have hlast : [name.toList].filterMap component? = [.ordinary name] := by
    rw [List.filterMap_cons, component?_ordinary hname]
    rfl
  rw [components, components, lead, lead, hhead, hfirst.1, hfirst.2, htext',
    List.head?_append_of_ne_nil _ hne, List.filterMap_append, hlast, List.append_assoc]

/-- A name by itself is one component. -/
theorem components_ordinary (hname : Ordinary name) : components name = [.ordinary name] := by
  have hrelative : name.toList.head? ≠ some '/' := fun h =>
    hname.slash (List.mem_of_mem_head? h)
  have hpieces : pieces name = [name.toList] := List.splitOn_eq_singleton hname.slash
  have hcurrent : some name.toList ≠ some ['.'] := fun h =>
    hname.ne_current (String.toList_inj.1 (Option.some.inj h))
  rw [components, lead, hpieces, if_neg hrelative, List.head?_cons, if_neg hcurrent,
    List.filterMap_cons, component?_ordinary hname]
  rfl

theorem components_push (text : String) (hname : Ordinary name) :
    components (push text name) = components text ++ [.ordinary name] := by
  have hrelative : name.toList.head? ≠ some '/' := fun h =>
    hname.slash (List.mem_of_mem_head? h)
  have hpiece : name.toList.splitOn '/' = [name.toList] := List.splitOn_eq_singleton hname.slash
  rw [push, if_neg hrelative]
  obtain htext | ⟨init, c, htext⟩ := List.eq_nil_or_concat text.toList
  · rw [htext, List.getLastD_nil, if_pos rfl, String.toList_eq_nil_iff.1 htext,
      String.empty_append]
    exact components_ordinary hname
  · rw [List.concat_eq_append] at htext
    rw [htext, List.getLastD_concat]
    by_cases hc : c = '/'
    · -- the text ends with a slash, and the name fills the empty piece behind it
      rw [if_pos hc]
      rw [hc] at htext
      refine components_of_pieces (List.splitOn_ne_nil '/' init) hname ?_ (.inr ?_) ?_
      · rw [String.toList_append, htext]
        cases init <;> rfl
      · rw [pieces, htext, List.splitOn_append_cons_self, List.splitOn_nil]
      · rw [pieces, String.toList_append, htext, List.append_assoc, List.singleton_append,
          List.splitOn_append_cons_self, hpiece]
    · rw [if_neg hc]
      refine components_of_pieces (List.splitOn_ne_nil '/' text.toList) hname ?_ (.inl rfl) ?_
      · rw [String.toList_append, String.toList_append, htext]
        cases init <;> rfl
      · have hslash : "/".toList = ['/'] := rfl
        rw [pieces, String.toList_append, String.toList_append, hslash, List.append_assoc,
          List.singleton_append, List.splitOn_append_cons_self, hpiece]

theorem components_foldl_push {names : List String} (hnames : ∀ name ∈ names, Ordinary name)
    (text : String) :
    components (names.foldl push text) = components text ++ names.map .ordinary := by
  induction names generalizing text with
  | nil => exact (List.append_nil _).symm
  | cons name names ih =>
    obtain ⟨hname, hnames⟩ := List.forall_mem_cons.1 hnames
    rw [List.foldl_cons, ih hnames, components_push text hname, List.append_assoc]
    rfl

end PathText

/-! ## Names of records -/

theorem named_of_checkPlace {path : Path} {key : String} (h : checkPlace path key = .ok ()) :
    Named path ∧ isName key = true := by
  obtain ⟨e, he, -⟩ | ⟨-, hnamed⟩ := checkPlace_cases path key
  · cases h.symm.trans he
  · exact hnamed

theorem ordinary_of_isName {name : String} (h : isName name = true) : Ordinary name := by
  have hdot : ∀ rest, name ≠ "." ++ rest := by
    rintro rest rfl
    rw [LocalStore.isName_of_dot] at h
    cases h
  have hsign : ∀ c, c = '/' ∨ c = '\\' → c ∉ name.toList := by
    intro c hc hmem
    rw [isName] at h
    split at h
    · cases h
    · rename_i hlist
      rw [hlist] at hmem
      have hall := List.all_eq_true.1 (Bool.and_eq_true_iff.1 h).2 c hmem
      obtain rfl | rfl := hc <;> simp at hall
  exact {
    ne_empty := by
      rintro rfl
      cases h
    ne_current := hdot ""
    ne_parent := hdot "."
    slash := hsign _ (.inl rfl)
    backslash := hsign _ (.inr rfl) }

namespace LocalStore

open PathText

variable {root l : Location} {path path' : Path} {key key' : String} {value : Bytes}
  {serial : Nat} {step : DiskStep}

/-- The names of a record's file below the root. -/
def recordNames (path : Path) (key : String) : List String := path ++ [".keys", key]

/-- The text by which a record's file is opened, put together name by name. -/
def recordText (root : String) (path : Path) (key : String) : String :=
  (recordNames path key).foldl push root

theorem recordFile_eq (root : Location) (path : Path) (key : String) :
    recordFile root path key = root ++ recordNames path key := by
  simp only [recordFile, keysDirectory, recordNames, List.append_assoc, List.singleton_append]

theorem ordinary_recordNames (hpath : Named path) (hkey : isName key = true) :
    ∀ name ∈ recordNames path key, Ordinary name := by
  intro name hname
  obtain hname | hname := List.mem_append.1 hname
  · exact ordinary_of_isName (hpath name hname)
  · simp only [List.mem_cons, List.not_mem_nil, or_false] at hname
    obtain rfl | rfl := hname
    · constructor <;> decide
    · exact ordinary_of_isName hkey

theorem recordNames_inj :
    recordNames path key = recordNames path' key' ↔ path = path' ∧ key = key' := by
  have h : recordFile [] path key = recordFile [] path' key' ↔ path = path' ∧ key = key' :=
    recordFile_inj
  rwa [recordFile_eq, recordFile_eq, List.nil_append, List.nil_append] at h

theorem components_recordText (hpath : Named path) (hkey : isName key = true) (root : String) :
    components (recordText root path key)
      = components root ++ (recordNames path key).map .ordinary :=
  components_foldl_push (ordinary_recordNames hpath hkey) root

/-- Ordinary components are told apart by their names. -/
theorem components_recordText_inj (hpath : Named path) (hkey : isName key = true)
    (hpath' : Named path') (hkey' : isName key' = true) (root : String) :
    components (recordText root path key) = components (recordText root path' key')
      ↔ path = path' ∧ key = key' := by
  rw [components_recordText hpath hkey, components_recordText hpath' hkey',
    List.append_cancel_left_eq, List.map_inj_right fun _ _ => Component.ordinary.inj,
    recordNames_inj]

/-- All that a write names: directories on the way, its temporary file and the record. -/
theorem locations_writeSteps (h : step ∈ writeSteps root path key value serial)
    (hl : l ∈ step.locations) :
    l <+: keysDirectory root path ∨ l = temporaryFile root path key serial
      ∨ l = recordFile root path key := by
  simp only [writeSteps, List.mem_append, List.mem_cons, List.not_mem_nil, or_false] at h
  obtain h | rfl | rfl | rfl | rfl := h
  · obtain ⟨m, rfl, hm⟩ := DiskStep.exists_of_mem_directorySteps h
    rw [List.mem_singleton.1 hl]
    exact .inl hm
  · exact .inr (.inl (List.mem_singleton.1 hl))
  · exact .inr (.inl (List.mem_singleton.1 hl))
  · exact .inr (.inl (List.mem_singleton.1 hl))
  · simp only [DiskStep.locations, List.mem_cons, List.not_mem_nil, or_false] at hl
    exact .inr hl

/-- Of all that a write needs a record's file is the way to itself only. -/
theorem eq_of_recordFile_on_way (hkey : isName key = true) (hpath' : Named path')
    (h : step ∈ writeSteps root path' key' value serial) (hl : l ∈ step.locations)
    (hbelow : recordFile root path key <+: l) :
    path = path' ∧ key = key' ∧ l = recordFile root path key := by
  have hway : ¬recordFile root path key <+: keysDirectory root path' :=
    recordFile_not_on_way hpath' key
  obtain hl | rfl | rfl := locations_writeSteps h hl
  · exact absurd (hbelow.trans hl) hway
  · obtain heq | hbelow := List.prefix_concat_iff.1 hbelow
    · rw [(recordFile_inj.1 heq).2, String.append_assoc, String.append_assoc, String.append_assoc,
        isName_of_dot] at hkey
      cases hkey
    · exact absurd hbelow hway
  · obtain heq | hbelow := List.prefix_concat_iff.1 hbelow
    · obtain ⟨rfl, rfl⟩ := recordFile_inj.1 heq
      exact ⟨rfl, rfl, rfl⟩
    · exact absurd hbelow hway

/-- A record that is accepted has a file of its own: below the root, one ordinary component for each
segment, `.keys` and the key. No file of a record is another one's, or on the way to anything that
another one needs. What is refused is refused on every store and leaves the store as it is. -/
theorem records_confined (path : Path) (key : String) :
    (checkPlace path key = .ok () →
      (∀ name ∈ recordNames path key, Ordinary name)
      ∧ (∀ text, components (recordText text path key)
        = components text ++ (recordNames path key).map .ordinary)
      ∧ (∀ root, recordFile root path key = root ++ recordNames path key)
      ∧ ∀ path' key', checkPlace path' key' = .ok () →
        (∀ text, components (recordText text path key) = components (recordText text path' key')
          ↔ path = path' ∧ key = key')
        ∧ ∀ root value serial, ∀ step ∈ writeSteps root path' key' value serial,
          ∀ l ∈ step.locations, recordFile root path key <+: l →
            path = path' ∧ key = key' ∧ l = recordFile root path key)
    ∧ (∀ e, checkPlace path key = .error e → ∀ s : LocalStore, s.read path key = .error e
      ∧ ∀ value, s.write path key value = (.error e, s))
    ∧ ∀ e, checkPath path = .error e → ∀ (s : LocalStore) first last,
      s.readRange path first last = .error e := by
  refine ⟨fun h => ?_, fun e he s => ⟨?_, fun value => ?_⟩, fun e he s first last => ?_⟩
  · obtain ⟨hpath, hkey⟩ := named_of_checkPlace h
    refine ⟨ordinary_recordNames hpath hkey, components_recordText hpath hkey,
      fun root => recordFile_eq root path key, fun path' key' h' => ?_⟩
    obtain ⟨hpath', hkey'⟩ := named_of_checkPlace h'
    exact ⟨components_recordText_inj hpath hkey hpath' hkey',
      fun root value serial step hstep l hl => eq_of_recordFile_on_way hkey hpath' hstep hl⟩
  · rw [read, he]
  · rw [write, he]
  · rw [readRange, he]

/-- A key that is called like a segment, below a root that is written with dots and slashes. -/
theorem records_confined_nested :
    checkPlace ["a"] "b" = .ok () ∧ checkPlace ["a", "b"] "c" = .ok ()
      ∧ checkPlace ["a", ".."] "b" = .error (.invalidSegment "..")
      ∧ recordText "./data/" ["a"] "b" = "./data/a/.keys/b"
      ∧ components (recordText "./data/" ["a"] "b")
        = [.current, .ordinary "data", .ordinary "a", .ordinary ".keys", .ordinary "b"]
      ∧ components (recordText "./data/" ["a"] "b")
        ≠ components (recordText "./data/" ["a", "b"] "c")
      ∧ (∀ l ∈ (DiskStep.makeDirectory ["data", "a", "b"]).locations,
        ¬recordFile ["data"] ["a"] "b" <+: l)
      ∧ ∀ s : LocalStore, s.write ["a", ".."] "b" [] = (.error (.invalidSegment ".."), s) := by
  have hshort : checkPlace ["a"] "b" = .ok () := checkPlace_eq_ok (by decide) (by decide)
  have hlong : checkPlace ["a", "b"] "c" = .ok () := checkPlace_eq_ok (by decide) (by decide)
  obtain ⟨haccepted, -, -⟩ := records_confined ["a"] "b"
  obtain ⟨-, hrefused, -⟩ := records_confined ["a", ".."] "b"
  obtain ⟨-, htext, -, hother⟩ := haccepted hshort
  obtain ⟨hdiffers, hway⟩ := hother ["a", "b"] "c" hlong
  have hparts := htext "./data/"
  refine ⟨hshort, hlong, rfl, by decide, hparts.trans (by decide),
    fun h => absurd ((hdiffers _).1 h).1 (by decide), fun l hl h => ?_,
    fun s => (hrefused _ rfl s).2 []⟩
  have hstep : .makeDirectory ["data", "a", "b"] ∈ writeSteps ["data"] ["a", "b"] "c" [] 0 :=
    List.mem_append_left _ (List.mem_map.2 ⟨2, by decide, rfl⟩)
  exact nomatch (hway ["data"] [] 0 _ hstep l hl h).1

end LocalStore

end Goalbase
