import Goalbase.Proofs.ByteOrder
import Goalbase.Proofs.Framing
import Goalbase.Store
import Mathlib.Data.List.Induction
import Mathlib.Data.List.Sort

/-!
# Goalbase.Proofs.Contents

What a store of records owes its callers.

The reference is one map from places to values (`Contents`). `Contents.Answers` says which answer a
call deserves when the map is what has been stored, and `lastWritten` finds the map in the history of
calls and answers. A store `KeyStore.Mirrors` the map when it refuses what is no name and otherwise
reads from the map and writes into it; after a whole run it then holds what was written last
(`KeyStore.Mirrors.holds_run`).
-/

namespace Goalbase

/-- The value of each place. -/
abbrev Contents (α : Type) := Path → String → Option α

namespace Contents

variable {α : Type}

def empty : Contents α := fun _ _ => none

/-- The value at one place only. -/
def single (path : Path) (key : String) (value : α) : Contents α := fun p k =>
  if p = path ∧ k = key then some value else none

def put (m : Contents α) (path : Path) (key : String) (value : α) : Contents α := fun p k =>
  if p = path ∧ k = key then some value else m p k

theorem of_put_eq_some {m : Contents α} {path p : Path} {key k : String} {value v : α}
    (h : m.put path key value p k = some v) :
    (p = path ∧ k = key ∧ v = value) ∨ m p k = some v := by
  rw [put] at h
  split at h
  · rename_i hplace
    exact .inl ⟨hplace.1, hplace.2, (Option.some.inj h).symm⟩
  · exact .inr h

/-- The places of one map before those of another. -/
def override (m change : Contents α) : Contents α := fun p k =>
  match change p k with
  | some value => some value
  | none => m p k

theorem override_single (m : Contents α) (path : Path) (key : String) (value : α) :
    m.override (single path key value) = m.put path key value := by
  funext p k
  rw [override, single, put]
  by_cases hplace : p = path ∧ k = key
  · rw [if_pos hplace, if_pos hplace]
  · rw [if_neg hplace, if_neg hplace]

/-- The value that the last step to say so gives a place. -/
def latest {β : Type} (valueAt? : β → Contents α) (history : List β) : Contents α :=
  fun path key => history.reverse.findSome? fun step => valueAt? step path key

theorem latest_concat {β : Type} (valueAt? : β → Contents α) (history : List β) (step : β) :
    latest valueAt? (history ++ [step]) = (latest valueAt? history).override (valueAt? step) := by
  funext path key
  rw [latest, List.reverse_concat, List.findSome?_cons, override]
  cases valueAt? step path key <;> rfl

/-- The entries of a path in a half-open range, each once and in ascending order of the bytes. -/
structure Lists (m : Contents α) (path : Path) (first last : String)
    (es : List (String × α)) : Prop where
  ascending : es.Pairwise fun a b => (utf8 a.1).Before (utf8 b.1)
  mem_iff : ∀ key value, (key, value) ∈ es
    ↔ ¬(utf8 key).Before (utf8 first) ∧ (utf8 key).Before (utf8 last) ∧ m path key = some value

variable {m : Contents α} {path : Path} {first last : String}

/-- Keys in ascending order list the entries when they are those of the range that have a value. -/
theorem lists_filterMap {keys : List String} (hkeys : keys.Pairwise (· < ·))
    (hrange : ∀ key ∈ keys, inRange first last key = true)
    (hall : ∀ key value, m path key = some value → inRange first last key = true → key ∈ keys) :
    m.Lists path first last
      (keys.filterMap fun key => (m path key).map fun value => (key, value)) := by
  have hin : ∀ key, inRange first last key = true
      ↔ ¬(utf8 key).Before (utf8 first) ∧ (utf8 key).Before (utf8 last) := by
    intro key
    rw [utf8_before_iff, utf8_before_iff, inRange, Bool.and_eq_true, decide_eq_true_iff,
      decide_eq_true_iff, not_lt]
  constructor
  · refine hkeys.filterMap _ fun key key' hlt a ha b hb => ?_
    obtain ⟨v, -, rfl⟩ := Option.map_eq_some_iff.1 ha
    obtain ⟨v', -, rfl⟩ := Option.map_eq_some_iff.1 hb
    exact utf8_before_iff.2 hlt
  · intro key value
    rw [List.mem_filterMap, ← and_assoc, ← hin]
    constructor
    · rintro ⟨key', hkey, h⟩
      obtain ⟨v, hv, h⟩ := Option.map_eq_some_iff.1 h
      cases h
      exact ⟨hrange key hkey, hv⟩
    · rintro ⟨hr, hv⟩
      exact ⟨key, hall key value hv hr, by rw [hv]; rfl⟩

theorem lists_nil (m : Contents α) (path : Path) (h : ¬first < last) :
    m.Lists path first last [] := by
  refine lists_filterMap .nil (fun key hkey => nomatch hkey) fun key value _ hrange => ?_
  rw [inRange, Bool.and_eq_true, decide_eq_true_iff, decide_eq_true_iff] at hrange
  exact absurd (lt_of_le_of_lt hrange.1 hrange.2) h

theorem Lists.unique {es es' : List (String × α)} (h : m.Lists path first last es)
    (h' : m.Lists path first last es') : es = es' := by
  have : Std.Irrefl fun a b : String × α => (utf8 a.1).Before (utf8 b.1) :=
    ⟨fun _ h => h.asymm h⟩
  have : Std.Antisymm fun a b : String × α => (utf8 a.1).Before (utf8 b.1) :=
    ⟨fun _ _ h h' => absurd h' h.asymm⟩
  refine h.ascending.eq_of_mem_iff h'.ascending fun e => ?_
  rw [h.mem_iff e.1 e.2, h'.mem_iff e.1 e.2]

/-- The entries of a map whose values have been converted are those of the map, converted. -/
theorem Lists.of_map {β : Type} {f : α → β} {es : List (String × β)}
    (h : Lists (fun p k => (m p k).map f) path first last es) :
    ∃ es' : List (String × α), es = es'.map (fun e => (e.1, f e.2))
      ∧ m.Lists path first last es' := by
  have hvalues : ∀ e ∈ es, ∃ value, m path e.1 = some value ∧ f value = e.2 := fun e he =>
    Option.map_eq_some_iff.1 ((h.mem_iff e.1 e.2).1 he).2.2
  obtain ⟨es', rfl, hes'⟩ : ∃ es' : List (String × α), es = es'.map (fun e => (e.1, f e.2))
      ∧ ∀ e ∈ es', m path e.1 = some e.2 := by
    clear h
    induction es with
    | nil => exact ⟨[], rfl, nofun⟩
    | cons e es ih =>
      obtain ⟨⟨value, hvalue, he⟩, hes⟩ := List.forall_mem_cons.1 hvalues
      obtain ⟨es', rfl, hes'⟩ := ih hes
      exact ⟨(e.1, value) :: es', by rw [List.map_cons, he],
        List.forall_mem_cons.2 ⟨hvalue, hes'⟩⟩
  have hascending := h.ascending
  rw [List.pairwise_map] at hascending
  refine ⟨es', rfl, hascending, fun key value => ⟨fun he => ?_, fun hr => ?_⟩⟩
  · obtain ⟨hfirst, hlast, -⟩ := (h.mem_iff key (f value)).1 (List.mem_map_of_mem he)
    exact ⟨hfirst, hlast, hes' _ he⟩
  · have he := (h.mem_iff key (f value)).2 ⟨hr.1, hr.2.1, by rw [hr.2.2, Option.map_some]⟩
    obtain ⟨⟨k, v⟩, he', hk⟩ := List.mem_map.1 he
    obtain rfl : k = key := congrArg Prod.fst hk
    obtain rfl : v = value := Option.some.inj ((hes' _ he').symm.trans hr.2.2)
    exact he'

end Contents

/-! ## Histories -/

section

variable {σ κ α β : Type} {perform : σ → κ → α × σ}

/-- The calls with their answers, and the state after them. -/
def performAll (perform : σ → κ → α × σ) (s : σ) : List κ → List (κ × α) × σ
  | [] => ([], s)
  | call :: rest =>
    let (answer, next) := perform s call
    let (history, final) := performAll perform next rest
    ((call, answer) :: history, final)

theorem performAll_concat (s : σ) (calls : List κ) (call : κ) :
    performAll perform s (calls ++ [call])
      = ((performAll perform s calls).1
          ++ [(call, (perform (performAll perform s calls).2 call).1)],
        (perform (performAll perform s calls).2 call).2) := by
  induction calls generalizing s with
  | nil => rfl
  | cons first rest ih => simp only [List.cons_append, performAll, ih]

/-- What each step keeps of a state and a map, with its own change made to the map, is kept by a run
with the latest values. -/
theorem performAll_latest (Inv : σ → Contents β → Prop) (change : κ × α → Contents β)
    {Fits : κ → Prop} (hstep : ∀ {s m call}, Inv s m → Fits call →
      Inv (perform s call).2 (m.override (change (call, (perform s call).1))))
    {s : σ} (hs : Inv s .empty) {calls : List κ} (hcalls : ∀ call ∈ calls, Fits call) :
    Inv (performAll perform s calls).2 (.latest change (performAll perform s calls).1) := by
  induction calls using List.reverseRecOn with
  | nil => exact hs
  | append_singleton calls call ih =>
    rw [performAll_concat, Contents.latest_concat]
    exact hstep (ih fun c hc => hcalls c (List.mem_append_left _ hc))
      (hcalls call (List.mem_append_right _ (List.mem_singleton_self call)))

end

/-! ## Names -/

def Named (path : Path) : Prop := ∀ segment ∈ path, isName segment = true

instance (path : Path) : Decidable (Named path) :=
  inferInstanceAs (Decidable (∀ segment ∈ path, isName segment = true))

/-- Why a call is refused: the first segment that is no name, or else the key, where it has one. -/
inductive Refusal : Path → Option String → StoreError → Prop where
  | segment {first rest : Path} {s : String} (hfirst : Named first) (h : isName s = false)
      (key? : Option String) : Refusal (first ++ s :: rest) key? (.invalidSegment s)
  | key {path : Path} {key : String} (hpath : Named path) (h : isName key = false) :
      Refusal path (some key) (.invalidKey key)

theorem named_of_checkPath {path : Path} (h : checkPath path = .ok ()) : Named path := by
  rw [checkPath] at h
  split at h
  · cases h
  · rename_i hfind
    intro s hs
    simpa using List.find?_eq_none.1 hfind s hs

theorem Named.checkPath_eq {path : Path} (h : Named path) : checkPath path = .ok () := by
  have hfind : path.find? (fun s => !isName s) = none :=
    List.find?_eq_none.2 fun s hs => by simp [h s hs]
  rw [checkPath, hfind]

theorem refusal_of_checkPath {path : Path} {e : StoreError} (h : checkPath path = .error e)
    (key? : Option String) : Refusal path key? e := by
  rw [checkPath] at h
  split at h
  · rename_i s hfind
    cases h
    obtain ⟨hs, first, rest, rfl, hfirst⟩ := List.find?_eq_some_iff_append.1 hfind
    exact .segment (fun n hn => by simpa using hfirst n hn) (by simpa using hs) key?
  · cases h

theorem Refusal.checkPath_eq {path : Path} {e : StoreError} (h : Refusal path none e) :
    checkPath path = .error e := by
  cases h with
  | @segment first rest s hfirst h =>
    have hfind : (first ++ s :: rest).find? (fun s => !isName s) = some s :=
      List.find?_eq_some_iff_append.2
        ⟨by simp [h], first, rest, rfl, fun n hn => by simp [hfirst n hn]⟩
    rw [checkPath, hfind]

theorem checkPlace_cases (path : Path) (key : String) :
    (∃ e, checkPlace path key = .error e ∧ Refusal path (some key) e)
      ∨ (checkPlace path key = .ok () ∧ Named path ∧ isName key = true) := by
  rw [checkPlace]
  cases hpath : checkPath path with
  | error e => exact .inl ⟨e, rfl, refusal_of_checkPath hpath _⟩
  | ok _ =>
    have hnamed := named_of_checkPath hpath
    simp only [checkKey]
    cases hkey : isName key with
    | true => exact .inr ⟨rfl, hnamed, rfl⟩
    | false => exact .inl ⟨.invalidKey key, rfl, .key hnamed hkey⟩

theorem Refusal.checkPlace_eq {path : Path} {key : String} {e : StoreError}
    (h : Refusal path (some key) e) : checkPlace path key = .error e := by
  cases h with
  | segment hfirst h => rw [checkPlace, (Refusal.segment hfirst h none).checkPath_eq]
  | key hpath h => simp [checkPlace, hpath.checkPath_eq, checkKey, h]

theorem checkPlace_eq_ok {path : Path} {key : String} (hpath : Named path)
    (hkey : isName key = true) : checkPlace path key = .ok () := by
  simp [checkPlace, hpath.checkPath_eq, checkKey, hkey]

theorem Refusal.unique {path : Path} {key? : Option String} {e e' : StoreError}
    (h : Refusal path key? e) (h' : Refusal path key? e') : e = e' := by
  cases key? with
  | none => exact Except.error.inj (h.checkPath_eq.symm.trans h'.checkPath_eq)
  | some key => exact Except.error.inj (h.checkPlace_eq.symm.trans h'.checkPlace_eq)

theorem Refusal.not_named {path : Path} {e : StoreError} (h : Refusal path none e) :
    ¬Named path := fun hpath => nomatch h.checkPath_eq.symm.trans hpath.checkPath_eq

theorem Refusal.not_accepted {path : Path} {key : String} {e : StoreError}
    (h : Refusal path (some key) e) (hpath : Named path) : ¬isName key = true := fun hkey =>
  nomatch h.checkPlace_eq.symm.trans (checkPlace_eq_ok hpath hkey)

/-! ## Calls and their answers -/

inductive StoreCall where
  | write (path : Path) (key : String) (value : Bytes)
  | read (path : Path) (key : String)
  | readRange (path : Path) (first last : String)

inductive StoreAnswer where
  | written (result : Except StoreError Unit)
  | found (result : Except StoreError (Option Bytes))
  | entries (result : Except StoreError (List (String × Bytes)))

namespace StoreCall

/-- The length of a value has room in a frame. -/
def Fits : StoreCall → Prop
  | write _ _ value => value.length < Record.lengthLimit
  | _ => True

def Refused (e : StoreError) : StoreCall → Prop
  | write path key _ => Refusal path (some key) e
  | read path key => Refusal path (some key) e
  | readRange path _ _ => Refusal path none e

end StoreCall

namespace Contents

/-- The answer a call deserves. -/
inductive Answers (m : Contents Bytes) : StoreCall → StoreAnswer → Prop where
  | refusedWrite {path : Path} {key : String} {e : StoreError} (h : Refusal path (some key) e)
      (value : Bytes) : Answers m (.write path key value) (.written (.error e))
  | written {path : Path} {key : String} (hpath : Named path) (hkey : isName key = true)
      (value : Bytes) : Answers m (.write path key value) (.written (.ok ()))
  | refusedRead {path : Path} {key : String} {e : StoreError} (h : Refusal path (some key) e) :
      Answers m (.read path key) (.found (.error e))
  | found {path : Path} {key : String} (hpath : Named path) (hkey : isName key = true) :
      Answers m (.read path key) (.found (.ok (m path key)))
  | refusedRange {path : Path} {e : StoreError} (h : Refusal path none e) (first last : String) :
      Answers m (.readRange path first last) (.entries (.error e))
  | nothing {path : Path} {first last : String} (hpath : Named path)
      (h : ¬(utf8 first).Before (utf8 last)) :
      Answers m (.readRange path first last) (.entries (.ok []))
  | entries {path : Path} {first last : String} {es : List (String × Bytes)} (hpath : Named path)
      (h : (utf8 first).Before (utf8 last)) (hes : m.Lists path first last es) :
      Answers m (.readRange path first last) (.entries (.ok es))

variable {m : Contents Bytes} {path : Path} {first last : String}

theorem answers_range {es : List (String × Bytes)} (hpath : Named path)
    (h : m.Lists path first last es) :
    m.Answers (.readRange path first last) (.entries (.ok es)) := by
  by_cases hlt : (utf8 first).Before (utf8 last)
  · exact .entries hpath hlt h
  · have hnil : es = [] := by
      refine List.eq_nil_iff_forall_not_mem.2 fun e he => hlt ?_
      obtain ⟨hfirst, hlast, -⟩ := (h.mem_iff e.1 e.2).1 he
      rw [utf8_before_iff] at *
      exact lt_of_le_of_lt (not_lt.1 hfirst) hlast
    rw [hnil]
    exact .nothing hpath hlt

/-- A call has one answer that it deserves. -/
theorem Answers.unique {call : StoreCall} {a b : StoreAnswer} (ha : m.Answers call a)
    (hb : m.Answers call b) : a = b := by
  cases ha with
  | refusedWrite h value =>
    cases hb with
    | refusedWrite h' => rw [h.unique h']
    | written hpath hkey => exact absurd hkey (h.not_accepted hpath)
  | written hpath hkey value =>
    cases hb with
    | refusedWrite h => exact absurd hkey (h.not_accepted hpath)
    | written _ _ => rfl
  | refusedRead h =>
    cases hb with
    | refusedRead h' => rw [h.unique h']
    | found hpath hkey => exact absurd hkey (h.not_accepted hpath)
  | found hpath hkey =>
    cases hb with
    | refusedRead h => exact absurd hkey (h.not_accepted hpath)
    | found _ _ => rfl
  | refusedRange h first last =>
    cases hb with
    | refusedRange h' => rw [h.unique h']
    | nothing hpath _ => exact absurd hpath h.not_named
    | entries hpath _ _ => exact absurd hpath h.not_named
  | nothing hpath hrange =>
    cases hb with
    | refusedRange h => exact absurd hpath h.not_named
    | nothing _ _ => rfl
    | entries _ hrange' _ => exact absurd hrange' hrange
  | entries hpath hrange hes =>
    cases hb with
    | refusedRange h => exact absurd hpath h.not_named
    | nothing _ hrange' => exact absurd hrange hrange'
    | entries _ _ hes' => rw [hes.unique hes']

end Contents

/-- The value that a step writes, at its place. -/
def writtenBy : StoreCall × StoreAnswer → Contents Bytes
  | (.write path key value, .written (.ok ())) => .single path key value
  | _ => .empty

/-- The value that was written last at each place. -/
def lastWritten (history : List (StoreCall × StoreAnswer)) : Contents Bytes :=
  .latest writtenBy history

/-! ## Stores -/

namespace KeyStore

variable {σ : Type} [KeyStore σ]

def perform (s : σ) : StoreCall → StoreAnswer × σ
  | .write path key value =>
    let (result, next) := write s path key value
    (.written result, next)
  | .read path key => (.found (read s path key), s)
  | .readRange path first last => (.entries (readRange s path first last), s)

def run (s : σ) (calls : List StoreCall) : List (StoreCall × StoreAnswer) × σ :=
  performAll perform s calls

/-- What a store owes its callers when its states stand for maps. -/
structure Mirrors (σ : Type) [KeyStore σ] (Holds : σ → Contents Bytes → Prop) : Prop where
  refusesRead {path : Path} {key : String} {e : StoreError} (h : checkPlace path key = .error e)
    (s : σ) : read s path key = .error e
  refusesRange {path : Path} {e : StoreError} (h : checkPath path = .error e) (s : σ)
    (first last : String) : readRange s path first last = .error e
  refusesWrite {path : Path} {key : String} {e : StoreError} (h : checkPlace path key = .error e)
    (s : σ) (value : Bytes) : write s path key value = (.error e, s)
  reads {s : σ} {m : Contents Bytes} (hs : Holds s m) {path : Path} {key : String}
    (hpath : Named path) (hkey : isName key = true) : read s path key = .ok (m path key)
  readsRange {s : σ} {m : Contents Bytes} (hs : Holds s m) {path : Path} (hpath : Named path)
    (first last : String) :
    ∃ es, readRange s path first last = .ok es ∧ m.Lists path first last es
  writes {s : σ} {m : Contents Bytes} (hs : Holds s m) {path : Path} {key : String}
    (hpath : Named path) (hkey : isName key = true) (value : Bytes) :
    ∃ next, write s path key value = (.ok (), next)
      ∧ (value.length < Record.lengthLimit → Holds next (m.put path key value))

namespace Mirrors

variable {Holds : σ → Contents Bytes → Prop}

theorem refused (h : Mirrors σ Holds) {call : StoreCall} {e : StoreError} (hcall : call.Refused e)
    (s : σ) : (perform s call).2 = s := by
  cases call with
  | write path key value => rw [perform, h.refusesWrite (Refusal.checkPlace_eq hcall) s value]
  | read path key => rfl
  | readRange path first last => rfl

theorem answers (h : Mirrors σ Holds) {s : σ} {m : Contents Bytes} (hs : Holds s m)
    (call : StoreCall) : m.Answers call (perform s call).1 := by
  cases call with
  | write path key value =>
    rw [perform]
    obtain ⟨e, he, hr⟩ | ⟨-, hpath, hkey⟩ := checkPlace_cases path key
    · rw [h.refusesWrite he]
      exact .refusedWrite hr value
    · obtain ⟨next, hw, -⟩ := h.writes hs hpath hkey value
      rw [hw]
      exact .written hpath hkey value
  | read path key =>
    rw [perform]
    obtain ⟨e, he, hr⟩ | ⟨-, hpath, hkey⟩ := checkPlace_cases path key
    · rw [h.refusesRead he]
      exact .refusedRead hr
    · rw [h.reads hs hpath hkey]
      exact .found hpath hkey
  | readRange path first last =>
    rw [perform]
    cases hpath : checkPath path with
    | error e =>
      rw [h.refusesRange hpath]
      exact .refusedRange (refusal_of_checkPath hpath none) first last
    | ok _ =>
      have hnamed := named_of_checkPath hpath
      obtain ⟨es, hr, hes⟩ := h.readsRange hs hnamed first last
      rw [hr]
      exact Contents.answers_range hnamed hes

theorem next (h : Mirrors σ Holds) {s : σ} {m : Contents Bytes} (hs : Holds s m) {call : StoreCall}
    (hfits : call.Fits) :
    Holds (perform s call).2 (m.override (writtenBy (call, (perform s call).1))) := by
  cases call with
  | write path key value =>
    rw [perform]
    obtain ⟨e, he, -⟩ | ⟨-, hpath, hkey⟩ := checkPlace_cases path key
    · rw [h.refusesWrite he]
      exact hs
    · obtain ⟨next, hw, hnext⟩ := h.writes hs hpath hkey value
      rw [hw, writtenBy, Contents.override_single]
      exact hnext hfits
  | read path key => exact hs
  | readRange path first last => exact hs

/-- After a run a store holds what was written last. -/
theorem holds_run (h : Mirrors σ Holds) {s : σ} (hs : Holds s .empty) {calls : List StoreCall}
    (hcalls : ∀ call ∈ calls, call.Fits) :
    Holds (run s calls).2 (lastWritten (run s calls).1) :=
  performAll_latest Holds writtenBy (fun hm hfits => h.next hm hfits) hs hcalls

/-- Stores that mirror the map answer every run alike. -/
theorem history_eq {τ : Type} [KeyStore τ] {Holds' : τ → Contents Bytes → Prop}
    (h : Mirrors σ Holds) (h' : Mirrors τ Holds') {s : σ} {t : τ} (hs : Holds s .empty)
    (ht : Holds' t .empty) {calls : List StoreCall} (hcalls : ∀ call ∈ calls, call.Fits) :
    (run s calls).1 = (run t calls).1 := by
  induction calls using List.reverseRecOn with
  | nil => rfl
  | append_singleton calls call ih =>
    have hinit : ∀ c ∈ calls, c.Fits := fun c hc => hcalls c (List.mem_append_left _ hc)
    have hall := ih hinit
    have hs' := h.answers (h.holds_run hs hinit) call
    have ht' := h'.answers (h'.holds_run ht hinit) call
    rw [← hall] at ht'
    rw [run, run, performAll_concat, performAll_concat]
    exact congrArg₂ (fun history answer => history ++ [(call, answer)]) hall (hs'.unique ht')

end Mirrors

end KeyStore

end Goalbase
