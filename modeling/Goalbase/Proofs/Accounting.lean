import Goalbase.Proofs.Archiving
import Goalbase.Proofs.Running

/-!
# Goalbase.Proofs.Accounting

The counters of an engine account for what happened.

A `Session` is an engine and its store; others may change the store at any time. Each operation adds
to five totals what it deserves (`Session.deserves`), whatever became of it, and the counters hold
these totals modulo `2^64` (`Counters.Holds`): `Session.holds_after` is the step, and
`counters_account` the run from an engine that has counted nothing.
-/

namespace Goalbase

/-- What may happen to an engine and its store. -/
inductive Operation (σ : Type) where
  | convert (t : Tree)
  | run (t : Tree)
  | runWith (t : Tree) (s : State)
  | stored (call : EngineCall)
  | stream (q : Query)
  | select (q : Query) (steps : Nat) (vars : List Var)
  /-- Someone else changes the store. -/
  | elsewhere (store : σ)

structure Session (σ : Type) where
  engine : Engine
  store : σ

/-- Conversions asked for, queries run, records written with their bytes, and trees handed out. -/
structure Totals where
  conversions : Nat := 0
  queries : Nat := 0
  written : Nat := 0
  bytes : Nat := 0
  read : Nat := 0

def Totals.add (a b : Totals) : Totals :=
  ⟨a.conversions + b.conversions, a.queries + b.queries, a.written + b.written, a.bytes + b.bytes,
    a.read + b.read⟩

theorem Totals.zero_add (a : Totals) : add {} a = a := by
  simp [add]

theorem Totals.add_assoc (a b c : Totals) : (a.add b).add c = a.add (b.add c) := by
  simp only [add, Nat.add_assoc]

/-- What a call to a store deserves for its answer; a failure deserves nothing. -/
def EngineCall.deserves : EngineCall → EngineAnswer → Totals
  | .write _ _ t, .written (.ok ()) => { written := 1, bytes := t.encode.length }
  | _, .found (.ok ts) => { read := ts.length }
  | _, _ => {}

/-- The counters hold the totals. Every conversion that was tried succeeded or failed, and was asked
for or part of a query that was run. -/
structure Counters.Holds (c : Counters) (total : Totals) : Prop where
  conversions : c.conversions + c.conversionFailures = c.queriesRun + .ofNat total.conversions
  queries : c.queriesRun = .ofNat total.queries
  written : c.goalsWritten = .ofNat total.written
  bytes : c.bytesWritten = .ofNat total.bytes
  read : c.goalsRead = .ofNat total.read

namespace Session

variable {σ : Type} [KeyStore σ]

def after (w : Session σ) : Operation σ → Session σ
  | .convert t => { w with engine := (w.engine.convert t).engine }
  | .run t => { w with engine := (w.engine.run t).engine }
  | .runWith t s => { w with engine := (w.engine.runWith t s).engine }
  | .stored call =>
    let reply := w.engine.perform w.store call
    ⟨reply.2.1, reply.2.2⟩
  | .stream q => { w with engine := (q.results w.engine).engine }
  | .select q steps vars => { w with engine := (q.select w.engine steps vars).engine }
  | .elsewhere store => { w with store := store }

/-- What an operation adds to the totals. A query runs its trees up to the first that cannot be
converted. -/
def deserves (w : Session σ) : Operation σ → Totals
  | .convert _ => { conversions := 1 }
  | .run _ => { queries := 1 }
  | .runWith _ _ => { queries := 1 }
  | .stored call => call.deserves (w.engine.perform w.store call).1
  | .stream q => { queries := Tree.attempted w.engine.registry w.engine.serial q.trees }
  | .select q _ _ => { queries := Tree.attempted w.engine.registry w.engine.serial q.trees }
  | .elsewhere _ => {}

def afterAll (w : Session σ) (ops : List (Operation σ)) : Session σ := ops.foldl after w

def deservesAll (w : Session σ) : List (Operation σ) → Totals
  | [] => {}
  | op :: rest => (w.deserves op).add ((w.after op).deservesAll rest)

end Session

def EngineAnswer.Failed : EngineAnswer → Prop
  | .written result => ∃ cause, result = .error cause
  | .found result => ∃ cause, result = .error cause

instance : DecidablePred EngineAnswer.Failed
  | .written (.error cause) => .isTrue ⟨cause, rfl⟩
  | .written (.ok _) => .isFalse nofun
  | .found (.error cause) => .isTrue ⟨cause, rfl⟩
  | .found (.ok _) => .isFalse nofun

namespace Engine

variable {σ : Type} [KeyStore σ]

/-- A call fails and leaves the engine as it was, or it counts what it wrote or handed out. -/
theorem perform_cases (e : Engine) (store : σ) (call : EngineCall) :
    ((e.perform store call).1.Failed ∧ (e.perform store call).2.1 = e
      ∧ call.deserves (e.perform store call).1 = {})
    ∨ (∃ path key t, call = .write path key t ∧ (e.perform store call).1 = .written (.ok ())
      ∧ (e.perform store call).2.1.counters = e.counters.countWrite (.ofNat t.encode.length))
    ∨ ∃ ts, (e.perform store call).1 = .found (.ok ts)
      ∧ (e.perform store call).2.1.counters = e.counters.countRead (.ofNat ts.length) := by
  cases call with
  | write path key t =>
    simp only [perform, write]
    obtain ⟨written, next⟩ := KeyStore.write store (e.fullPath path) key t.encode
    cases written with
    | error cause => exact .inl ⟨⟨_, rfl⟩, rfl, rfl⟩
    | ok _ => exact .inr (.inl ⟨path, key, t, rfl, rfl, rfl⟩)
  | read path key =>
    simp only [perform, read]
    cases KeyStore.read store (e.fullPath path) key with
    | error cause => exact .inl ⟨⟨_, rfl⟩, rfl, rfl⟩
    | ok found =>
      cases found with
      | none =>
        refine .inr (.inr ⟨[], rfl, ?_⟩)
        simp [Counters.countRead]
      | some bytes =>
        dsimp only
        cases Tree.decode? bytes with
        | error cause => exact .inl ⟨⟨_, rfl⟩, rfl, rfl⟩
        | ok t => exact .inr (.inr ⟨[t], rfl, rfl⟩)
  | readRange path first last =>
    simp only [perform, readRange]
    cases KeyStore.readRange store (e.fullPath path) first last with
    | error cause => exact .inl ⟨⟨_, rfl⟩, rfl, rfl⟩
    | ok found =>
      dsimp only
      cases decodeAll found with
      | error cause => exact .inl ⟨⟨_, rfl⟩, rfl, rfl⟩
      | ok ts => exact .inr (.inr ⟨ts, rfl, rfl⟩)

theorem counters_perform_failed (e : Engine) (store : σ) {call : EngineCall}
    (h : (e.perform store call).1.Failed) :
    (e.perform store call).2.1.counters = e.counters := by
  obtain ⟨-, hengine, -⟩ | ⟨_, _, _, -, hok, -⟩ | ⟨_, hok, -⟩ := e.perform_cases store call
  · rw [hengine]
  · rw [hok] at h
    obtain ⟨_, h⟩ := h
    cases h
  · rw [hok] at h
    obtain ⟨_, h⟩ := h
    cases h

end Engine

namespace Counters.Holds

variable {c : Counters} {total : Totals}

theorem ran (h : c.Holds total) (converted failed : Nat) :
    (c.ran converted failed).Holds (total.add { queries := converted + failed }) where
  conversions := by
    simp only [Counters.ran, Totals.add, UInt64.ofNat_add]
    have := h.conversions
    grind
  queries := by simp only [Counters.ran, Totals.add, UInt64.ofNat_add, h.queries]
  written := h.written
  bytes := h.bytes
  read := h.read

theorem converted (h : c.Holds total) :
    c.countConversion.Holds (total.add { conversions := 1 }) where
  conversions := by
    simp only [Counters.countConversion, Totals.add, UInt64.ofNat_add]
    have := h.conversions
    grind
  queries := h.queries
  written := h.written
  bytes := h.bytes
  read := h.read

theorem failed (h : c.Holds total) : c.countFailure.Holds (total.add { conversions := 1 }) where
  conversions := by
    simp only [Counters.countFailure, Totals.add, UInt64.ofNat_add]
    have := h.conversions
    grind
  queries := h.queries
  written := h.written
  bytes := h.bytes
  read := h.read

theorem wrote (h : c.Holds total) (bytes : Nat) :
    (c.countWrite (.ofNat bytes)).Holds (total.add { written := 1, bytes := bytes }) where
  conversions := h.conversions
  queries := h.queries
  written := by simp [Counters.countWrite, Totals.add, UInt64.ofNat_add, h.written]
  bytes := by simp [Counters.countWrite, Totals.add, UInt64.ofNat_add, h.bytes]
  read := h.read

theorem handedOut (h : c.Holds total) (goals : Nat) :
    (c.countRead (.ofNat goals)).Holds (total.add { read := goals }) where
  conversions := h.conversions
  queries := h.queries
  written := h.written
  bytes := h.bytes
  read := by simp [Counters.countRead, Totals.add, UInt64.ofNat_add, h.read]

theorem runWith {e : Engine} (h : e.counters.Holds total) (t : Tree) (s : State) :
    (e.runWith t s).engine.counters.Holds (total.add { queries := 1 }) := by
  obtain ⟨_, _, -, -, hengine⟩ | ⟨_, -, -, hengine⟩ := e.runWith_cases t s
  · rw [hengine]
    exact h.ran 1 0
  · rw [hengine]
    exact h.ran 0 1

theorem runAll {e : Engine} (h : e.counters.Holds total) (ts : List Tree) :
    (Query.runAll e ts).engine.counters.Holds
      (total.add { queries := Tree.attempted e.registry e.serial ts }) := by
  obtain ⟨converted, failed, _, hsum, hengine⟩ := Query.engine_runAll e ts
  rw [hengine, ← hsum]
  exact h.ran converted failed

end Counters.Holds

namespace Session

variable {σ : Type} [KeyStore σ] {w : Session σ} {total : Totals}

/-- An operation counts what it deserves. -/
theorem holds_after (h : w.engine.counters.Holds total) (op : Operation σ) :
    (w.after op).engine.counters.Holds (total.add (w.deserves op)) := by
  cases op with
  | convert t =>
    rw [after, Engine.convert]
    obtain ⟨_, _, -, -, hengine⟩ | ⟨_, -, -, hengine⟩ :=
      w.engine.nextQuery.convertAs_cases w.engine.queryId t
    · rw [hengine]
      exact h.converted
    · rw [hengine]
      exact h.failed
  | run t => exact h.runWith t .empty
  | runWith t s => exact h.runWith t s
  | stored call =>
    rw [after, deserves]
    obtain ⟨-, hengine, hnone⟩ | ⟨path, key, t, rfl, hanswer, hcounters⟩
      | ⟨ts, hanswer, hcounters⟩ := w.engine.perform_cases w.store call
    · dsimp only
      rw [hengine, hnone]
      exact h
    · dsimp only
      rw [hcounters, hanswer]
      exact h.wrote _
    · dsimp only
      rw [hcounters, hanswer, EngineCall.deserves]
      exact h.handedOut _
  | stream q =>
    rw [after, Query.engine_results]
    exact h.runAll q.trees
  | select q steps vars =>
    rw [after, Query.engine_select]
    exact h.runAll q.trees
  | elsewhere store => exact h

theorem holds_afterAll (h : w.engine.counters.Holds total) (ops : List (Operation σ)) :
    (w.afterAll ops).engine.counters.Holds (total.add (w.deservesAll ops)) := by
  induction ops generalizing w total with
  | nil => exact h
  | cons op rest ih =>
    rw [deservesAll, ← Totals.add_assoc]
    exact ih (holds_after h op)

end Session

/-- After any operations of an engine that started afresh, on a store that others may change, its
counters hold what the operations deserve; and a call to the store that fails changes no counter. -/
theorem counters_account {σ : Type} [KeyStore σ] (config : Config) (registry : Registry)
    (serial : Nat) (store : σ) (ops : List (Operation σ)) :
    let start : Session σ := ⟨⟨config, registry, .zero, serial⟩, store⟩
    let w := start.afterAll ops
    w.engine.counters.Holds (start.deservesAll ops)
      ∧ ∀ call, (w.engine.perform w.store call).1.Failed →
        (w.engine.perform w.store call).2.1.counters = w.engine.counters := by
  intro start w
  have hstart : start.engine.counters.Holds {} := ⟨rfl, rfl, rfl, rfl, rfl⟩
  have hholds := Session.holds_afterAll hstart ops
  rw [Totals.zero_add] at hholds
  exact ⟨hholds, fun call hfailed => w.engine.counters_perform_failed w.store hfailed⟩

/-- A conversion that fails, a query that stops at the second of three trees, a record written and
read, and a write that is refused. -/
theorem counters_account_mixed :
    let unknown : Tree := .constraint "unknown" [] none
    let ops : List (Operation MemoryStore) := [.convert unknown, .run (.and []),
      .select ⟨[.or [], unknown, .or []]⟩ 9 [], .stored (.write ["db"] "k" (.and [])),
      .stored (.read ["db"] "k"), .stored (.readRange ["db"] "k" "l")]
    let start : Session MemoryStore := ⟨⟨.default, .empty, .zero, 0⟩, .empty⟩
    let w := start.afterAll ops
    let refused : EngineCall := .write [".."] "k" (.and [])
    w.engine.counters = ⟨3, 2, 2, 1, 2, 53⟩
      ∧ w.engine.counters.Holds (start.deservesAll ops)
      ∧ (w.engine.perform w.store refused).1.Failed
      ∧ (w.engine.perform w.store refused).2.1.counters = w.engine.counters := by
  have haccount := counters_account .default .empty 0 MemoryStore.empty
  refine ⟨by decide +kernel, (haccount _).1, by decide +kernel, ?_⟩
  exact (haccount _).2 (.write [".."] "k" (.and [])) (by decide +kernel)

end Goalbase
