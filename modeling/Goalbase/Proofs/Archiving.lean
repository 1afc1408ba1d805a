import Goalbase.Engine
import Goalbase.Proofs.Storing
import Goalbase.Proofs.Stores
import Mathlib.Logic.Function.Basic

/-!
# Goalbase.Proofs.Archiving

Engines that share a store keep the tree that was written last.

Engines differ in the base path that they put before every path. On a `Shared` store they read and
write one map from full paths and keys to trees: `lastStored` finds it in their history, and
`Contents.Replies` says which answer a call deserves. A store that mirrors a map of bytes holds the
encoded trees after every run (`Shared.Keeps.run`), so that an engine finds what any of them wrote
last, less the inline goals (`last_write_wins`).
-/

namespace Goalbase

inductive EngineCall where
  | write (path : Path) (key : String) (t : Tree)
  | read (path : Path) (key : String)
  | readRange (path : Path) (first last : String)

/-- An answer of an engine; a query is given by its trees. -/
inductive EngineAnswer where
  | written (result : Except EngineError Unit)
  | found (result : Except EngineError (List Tree))

/-- The doubles of a tree are read back from their text, which has room in a frame. -/
def EngineCall.Storable : EngineCall → Prop
  | write _ _ t => t.DoublesReadBack ∧ t.encode.length < Record.lengthLimit
  | _ => True

/-- The answer a call deserves from an engine with a base path. -/
inductive Contents.Replies (m : Contents Tree) (base : Path) : EngineCall → EngineAnswer → Prop where
  | refusedWrite {path : Path} {key : String} {e : StoreError}
      (h : Refusal (base ++ path) (some key) e) (t : Tree) :
      Replies m base (.write path key t) (.written (.error (.store e)))
  | written {path : Path} {key : String} (hpath : Named (base ++ path)) (hkey : isName key = true)
      (t : Tree) : Replies m base (.write path key t) (.written (.ok ()))
  | refusedRead {path : Path} {key : String} {e : StoreError}
      (h : Refusal (base ++ path) (some key) e) :
      Replies m base (.read path key) (.found (.error (.store e)))
  | missing {path : Path} {key : String} (hpath : Named (base ++ path)) (hkey : isName key = true)
      (h : m (base ++ path) key = none) : Replies m base (.read path key) (.found (.ok []))
  | found {path : Path} {key : String} {t : Tree} (hpath : Named (base ++ path))
      (hkey : isName key = true) (h : m (base ++ path) key = some t) :
      Replies m base (.read path key) (.found (.ok [t.stored]))
  | refusedRange {path : Path} {e : StoreError} (h : Refusal (base ++ path) none e)
      (first last : String) :
      Replies m base (.readRange path first last) (.found (.error (.store e)))
  | listed {path : Path} {first last : String} {es : List (String × Tree)}
      (hpath : Named (base ++ path)) (hes : m.Lists (base ++ path) first last es) :
      Replies m base (.readRange path first last) (.found (.ok (es.map fun e => e.2.stored)))

/-! ## One engine -/

/-- The map of the encoded trees. -/
def Contents.encoded (m : Contents Tree) : Contents Bytes := fun p k => (m p k).map Tree.encode

theorem Contents.encoded_put (m : Contents Tree) (path : Path) (key : String) (t : Tree) :
    (m.put path key t).encoded = m.encoded.put path key t.encode := by
  funext p k
  rw [encoded, put, put, encoded]
  by_cases hplace : p = path ∧ k = key
  · rw [if_pos hplace, if_pos hplace, Option.map_some]
  · rw [if_neg hplace, if_neg hplace]

namespace Engine

variable {σ : Type} [KeyStore σ]

def perform (e : Engine) (store : σ) : EngineCall → EngineAnswer × Engine × σ
  | .write path key t =>
    let (reply, store) := e.write store path key t
    (.written reply.result, reply.engine, store)
  | .read path key =>
    let reply := e.read store path key
    (.found reply.result, reply.engine, store)
  | .readRange path first last =>
    let reply := e.readRange store path first last
    (.found reply.result, reply.engine, store)

theorem decodeAll_encode {es : List (String × Tree)} (h : ∀ e ∈ es, e.2.DoublesReadBack) :
    decodeAll (es.map fun e => (e.1, e.2.encode)) = .ok (es.map fun e => e.2.stored) := by
  induction es with
  | nil => rfl
  | cons e es ih =>
    obtain ⟨he, hes⟩ := List.forall_mem_cons.1 h
    rw [List.map_cons, decodeAll, Tree.decode?_encode he, ih hes, List.map_cons]

variable {Holds : σ → Contents Bytes → Prop} {store : σ} {m : Contents Tree}

/-- A write is refused and changes nothing, or it puts the tree at its place. -/
theorem perform_write (h : KeyStore.Mirrors σ Holds) (hs : Holds store m.encoded) (e : Engine)
    (path : Path) (key : String) (t : Tree) :
    (∃ cause, Refusal (e.fullPath path) (some key) cause
      ∧ e.perform store (.write path key t) = (.written (.error (.store cause)), e, store))
    ∨ (Named (e.fullPath path) ∧ isName key = true
      ∧ ∃ engine next, e.perform store (.write path key t) = (.written (.ok ()), engine, next)
        ∧ (t.encode.length < Record.lengthLimit →
          Holds next (m.put (e.fullPath path) key t).encoded)) := by
  rw [perform, write]
  obtain ⟨cause, he, hr⟩ | ⟨-, hpath, hkey⟩ := checkPlace_cases (e.fullPath path) key
  · rw [h.refusesWrite he]
    exact .inl ⟨cause, hr, rfl⟩
  · obtain ⟨next, hw, hnext⟩ := h.writes hs hpath hkey t.encode
    rw [hw, Contents.encoded_put]
    exact .inr ⟨hpath, hkey, _, next, rfl, hnext⟩

/-- What an engine answers when a store holds the encoded trees. -/
theorem replies (h : KeyStore.Mirrors σ Holds) (hs : Holds store m.encoded)
    (hdoubles : ∀ {p k t}, m p k = some t → t.DoublesReadBack) (e : Engine) (call : EngineCall) :
    m.Replies e.config.basePath call (e.perform store call).1 := by
  cases call with
  | write path key t =>
    obtain ⟨cause, hr, hwrite⟩ | ⟨hpath, hkey, engine, next, hwrite, -⟩ :=
      e.perform_write h hs path key t
    · rw [hwrite]
      exact .refusedWrite hr t
    · rw [hwrite]
      exact .written hpath hkey t
  | read path key =>
    rw [perform, read]
    obtain ⟨cause, he, hr⟩ | ⟨-, hpath, hkey⟩ := checkPlace_cases (e.fullPath path) key
    · rw [h.refusesRead he]
      exact .refusedRead hr
    · rw [h.reads hs hpath hkey, Contents.encoded]
      cases hvalue : m (e.fullPath path) key with
      | none => exact .missing hpath hkey hvalue
      | some t =>
        simp only [Option.map_some, Tree.decode?_encode (hdoubles hvalue)]
        exact .found hpath hkey hvalue
  | readRange path first last =>
    rw [perform, readRange]
    cases hpath : checkPath (e.fullPath path) with
    | error cause =>
      rw [h.refusesRange hpath]
      exact .refusedRange (refusal_of_checkPath hpath none) first last
    | ok _ =>
      have hnamed := named_of_checkPath hpath
      obtain ⟨found, hr, hfound⟩ := h.readsRange hs hnamed first last
      obtain ⟨es, rfl, hes⟩ := hfound.of_map
      have hall : ∀ e ∈ es, e.2.DoublesReadBack := fun e he =>
        hdoubles ((hes.mem_iff e.1 e.2).1 he).2.2
      simp only [hr, decodeAll_encode hall]
      exact .listed hnamed hes

/-- Neither a call nor its failure changes the base path. -/
theorem config_perform (e : Engine) (store : σ) (call : EngineCall) :
    (e.perform store call).2.1.config = e.config := by
  cases call with
  | write path key t =>
    rw [perform, write]
    cases KeyStore.write store (e.fullPath path) key t.encode with
    | mk written next => cases written <;> rfl
  | read path key =>
    rw [perform, read]
    split
    · rfl
    · rfl
    · split <;> rfl
  | readRange path first last =>
    rw [perform, readRange]
    split
    · rfl
    · split <;> rfl

/-- A write that fails is refused, and leaves the engine and the store as they were. -/
theorem perform_failed (h : KeyStore.Mirrors σ Holds) (hs : Holds store m.encoded) (e : Engine)
    (call : EngineCall) {cause : EngineError}
    (hcause : (e.perform store call).1 = .written (.error cause)) :
    (e.perform store call).2 = (e, store) := by
  cases call with
  | read path key => cases hcause
  | readRange path first last => cases hcause
  | write path key t =>
    obtain ⟨refusal, -, hwrite⟩ | ⟨-, -, engine, next, hwrite, -⟩ :=
      e.perform_write h hs path key t
    · rw [hwrite]
    · rw [hwrite] at hcause
      cases hcause

end Engine

/-! ## Engines that share a store -/

structure Shared (σ : Type) where
  engines : Nat → Engine
  store : σ

def basePaths (engines : Nat → Engine) (i : Nat) : Path := (engines i).config.basePath

/-- The tree that a step writes, at its full path. -/
def storedBy (base : Nat → Path) : (Nat × EngineCall) × EngineAnswer → Contents Tree
  | ((i, .write path key t), .written (.ok ())) => .single (base i ++ path) key t
  | _ => .empty

/-- The tree that was last written with success at each place. -/
def lastStored (base : Nat → Path) (history : List ((Nat × EngineCall) × EngineAnswer)) :
    Contents Tree := .latest (storedBy base) history

namespace Shared

variable {σ : Type} [KeyStore σ]

/-- A call to the engine of a number. -/
def perform (w : Shared σ) (call : Nat × EngineCall) : EngineAnswer × Shared σ :=
  let reply := (w.engines call.1).perform w.store call.2
  (reply.1, ⟨Function.update w.engines call.1 reply.2.1, reply.2.2⟩)

def run (w : Shared σ) (calls : List (Nat × EngineCall)) :
    List ((Nat × EngineCall) × EngineAnswer) × Shared σ := performAll perform w calls

/-- The engines have these base paths, and the store holds these trees. -/
structure Keeps (Holds : σ → Contents Bytes → Prop) (w : Shared σ) (base : Nat → Path)
    (m : Contents Tree) : Prop where
  base_eq : basePaths w.engines = base
  holds : Holds w.store m.encoded
  doubles {path : Path} {key : String} {t : Tree} (h : m path key = some t) : t.DoublesReadBack

variable {Holds : σ → Contents Bytes → Prop} {base : Nat → Path} {w : Shared σ} {m : Contents Tree}

theorem basePaths_perform (w : Shared σ) (call : Nat × EngineCall) :
    basePaths (w.perform call).2.engines = basePaths w.engines := by
  obtain ⟨i, call⟩ := call
  funext j
  change (Function.update w.engines i ((w.engines i).perform w.store call).2.1 j).config.basePath
    = (w.engines j).config.basePath
  by_cases hj : j = i
  · rw [hj, Function.update_self, Engine.config_perform]
  · rw [Function.update_of_ne hj]

theorem Keeps.perform (hw : w.Keeps Holds base m) (h : KeyStore.Mirrors σ Holds)
    {call : Nat × EngineCall} (hcall : call.2.Storable) :
    (w.perform call).2.Keeps Holds base
      (m.override (storedBy base (call, (w.perform call).1))) := by
  have hbase := (w.basePaths_perform call).trans hw.base_eq
  obtain ⟨i, call⟩ := call
  cases call with
  | read path key => exact ⟨hbase, hw.holds, hw.doubles⟩
  | readRange path first last => exact ⟨hbase, hw.holds, hw.doubles⟩
  | write path key t =>
    obtain ⟨cause, -, hwrite⟩ | ⟨-, -, engine, next, hwrite, hnext⟩ :=
      (w.engines i).perform_write h hw.holds path key t
    · have hperform : w.perform (i, .write path key t) = (.written (.error (.store cause)),
          ⟨Function.update w.engines i (w.engines i), w.store⟩) := by rw [Shared.perform, hwrite]
      rw [hperform] at hbase ⊢
      exact ⟨hbase, hw.holds, hw.doubles⟩
    · have hperform : w.perform (i, .write path key t) = (.written (.ok ()),
          ⟨Function.update w.engines i engine, next⟩) := by rw [Shared.perform, hwrite]
      have hplace : (w.engines i).fullPath path = base i ++ path := by
        rw [← hw.base_eq]
        rfl
      rw [hplace] at hnext
      rw [hperform] at hbase ⊢
      rw [storedBy, Contents.override_single]
      refine ⟨hbase, hnext hcall.2, fun {p k u} hu => ?_⟩
      obtain ⟨-, -, rfl⟩ | hu := Contents.of_put_eq_some hu
      · exact hcall.1
      · exact hw.doubles hu

theorem Keeps.run (hw : w.Keeps Holds base .empty) (h : KeyStore.Mirrors σ Holds)
    {calls : List (Nat × EngineCall)} (hcalls : ∀ call ∈ calls, call.2.Storable) :
    (w.run calls).2.Keeps Holds base (lastStored base (w.run calls).1) :=
  performAll_latest (fun w m => Keeps Holds w base m) (storedBy base)
    (fun hm hcall => hm.perform h hcall) hw hcalls

/-- After any calls a call is answered from the trees that were last written, and a write that fails
leaves everything as it was. -/
def LastWriteWins (w : Shared σ) : Prop :=
  ∀ earlier : List (Nat × EngineCall), (∀ call ∈ earlier, call.2.Storable) →
    ∀ (i : Nat) (call : EngineCall),
      let before := w.run earlier
      let after := before.2.perform (i, call)
      (lastStored (basePaths w.engines) before.1).Replies (basePaths w.engines i) call after.1
        ∧ ∀ cause, after.1 = .written (.error cause) → after.2 = before.2

end Shared

theorem KeyStore.Mirrors.lastWriteWins {σ : Type} [KeyStore σ] {Holds : σ → Contents Bytes → Prop}
    (h : Mirrors σ Holds) {store : σ} (hs : Holds store .empty) (engines : Nat → Engine) :
    Shared.LastWriteWins ⟨engines, store⟩ := by
  intro earlier hearlier i call before after
  have hkeeps := Shared.Keeps.run (w := ⟨engines, store⟩) ⟨rfl, hs, nofun⟩ h hearlier
  have hbase : (before.2.engines i).config.basePath = (engines i).config.basePath :=
    congrFun hkeeps.base_eq i
  refine ⟨?_, fun cause hcause => ?_⟩
  · have hreplies := (before.2.engines i).replies h hkeeps.holds hkeeps.doubles call
    rwa [hbase] at hreplies
  · have hsame := (before.2.engines i).perform_failed h hkeeps.holds call hcause
    change Shared.mk (Function.update before.2.engines i _) _ = before.2
    rw [hsame, Function.update_eq_self]

end Goalbase
