import Goalbase.Json.Document
import Goalbase.Proofs.Spacing

/-!
# Goalbase.Proofs.Grammar

What the reader of JSON accepts.

A `Script` is a JSON value as it is written: members in the order given, and numbers and strings
that may denote nothing. Its tokens are read as its outermost parts (`Script.run?_tokensOnto`), and
nothing but the tokens of a script is read (`Script.exists_value`): the reader runs in steps on a
list of open containers, and whatever run ends with a document has, at each value, read one whole
script. For texts, `Script.ofGlyphs?_eq` and `Script.exists_of_ofGlyphs?` put this together with the
cutting into tokens.
-/

namespace Goalbase

/-- A JSON value as it is written, with members in order and with values that denote nothing. -/
inductive Script where
  | null
  | bool (value : Bool)
  | number (value : Option Number)
  | string (value : Option String)
  | array (elements : List Script)
  | object (members : List (Option String × Script))

namespace Script

/-! ## Tokens and values -/

mutual

/-- The tokens of a script, in front of `rest`. -/
def tokensOnto (rest : List Token) : Script → List Token
  | .null => .null :: rest
  | .bool b => .bool b :: rest
  | .number n => .number n :: rest
  | .string s => .string s :: rest
  | .array [] => .openBracket :: .closeBracket :: rest
  | .array (w :: ws) => .openBracket :: tokensOnto (elementsOnto (.closeBracket :: rest) ws) w
  | .object [] => .openBrace :: .closeBrace :: rest
  | .object ((k, w) :: ms) =>
    .openBrace :: .string k :: .colon :: tokensOnto (membersOnto (.closeBrace :: rest) ms) w

def elementsOnto (rest : List Token) : List Script → List Token
  | [] => rest
  | w :: ws => .comma :: tokensOnto (elementsOnto rest ws) w

def membersOnto (rest : List Token) : List (Option String × Script) → List Token
  | [] => rest
  | (k, w) :: ms => .comma :: .string k :: .colon :: tokensOnto (membersOnto rest ms) w

end

def tokens (w : Script) : List Token := w.tokensOnto []

mutual

/-- The value that is written, if every part of it denotes something. -/
def value? : Script → Option Json
  | .null => some .null
  | .bool b => some (.bool b)
  | .number n => n.map .number
  | .string s => s.map .string
  | .array ws => (values? ws).map .array
  | .object ms => (memberValues? ms).map .object

def values? : List Script → Option (List Json)
  | [] => some []
  | w :: ws =>
    match value? w, values? ws with
    | some j, some js => some (j :: js)
    | _, _ => none

def memberValues? : List (Option String × Script) → Option (List (String × Json))
  | [] => some []
  | (k, w) :: ms =>
    match k, value? w, memberValues? ms with
    | some k, some j, some js => some ((k, j) :: js)
    | _, _, _ => none

end

/-- The outermost parts of a script. -/
def document : Script → Document
  | .array ws => .elements (ws.map value?)
  | .object ms => .members (ms.map fun m => (m.1, m.2.value?))
  | w => .scalar w.value?

theorem allSome_map_value? (ws : List Script) : Utf8.allSome (ws.map value?) = values? ws := by
  induction ws with
  | nil => rfl
  | cons w ws ih =>
    rw [List.map_cons, values?, ← ih]
    cases value? w with
    | none => rfl
    | some j =>
      simp only [Utf8.allSome]
      cases Utf8.allSome (ws.map value?) <;> rfl

theorem readableMembers?_map_value? (ms : List (Option String × Script)) :
    Document.readableMembers? (ms.map fun m => (m.1, m.2.value?)) = memberValues? ms := by
  induction ms with
  | nil => rfl
  | cons m ms ih =>
    obtain ⟨k, w⟩ := m
    rw [List.map_cons]
    cases k with
    | none => rfl
    | some k =>
      simp only [memberValues?, ← ih]
      cases value? w with
      | none => rfl
      | some j =>
        simp only [Document.readableMembers?]
        cases Document.readableMembers? (ms.map fun m => (m.1, m.2.value?)) <;> rfl

theorem value?_document (w : Script) : w.document.value? = w.value? := by
  cases w with
  | array ws =>
    simp only [document, Document.value?, allSome_map_value?, value?]
    cases values? ws <;> rfl
  | object ms =>
    simp only [document, Document.value?, readableMembers?_map_value?, value?]
    cases memberValues? ms <;> rfl
  | _ => rfl

mutual

theorem tokensOnto_append : ∀ (w : Script) (ts us : List Token),
    w.tokensOnto (ts ++ us) = w.tokensOnto ts ++ us
  | .null, _, _ => rfl
  | .bool _, _, _ => rfl
  | .number _, _, _ => rfl
  | .string _, _, _ => rfl
  | .array [], _, _ => rfl
  | .array (w :: ws), ts, us => by
    rw [tokensOnto, tokensOnto, ← List.cons_append, elementsOnto_append ws, tokensOnto_append w]
    rfl
  | .object [], _, _ => rfl
  | .object ((k, w) :: ms), ts, us => by
    rw [tokensOnto, tokensOnto, ← List.cons_append, membersOnto_append ms, tokensOnto_append w]
    rfl

theorem elementsOnto_append : ∀ (ws : List Script) (ts us : List Token),
    elementsOnto (ts ++ us) ws = elementsOnto ts ws ++ us
  | [], _, _ => rfl
  | w :: ws, ts, us => by
    rw [elementsOnto, elementsOnto, elementsOnto_append ws, tokensOnto_append w]
    rfl

theorem membersOnto_append : ∀ (ms : List (Option String × Script)) (ts us : List Token),
    membersOnto (ts ++ us) ms = membersOnto ts ms ++ us
  | [], _, _ => rfl
  | (k, w) :: ms, ts, us => by
    rw [membersOnto, membersOnto, membersOnto_append ms, tokensOnto_append w]
    rfl

end

/-- A list ends with its bracket. -/
theorem getLast?_array (ws : List Script) :
    (array ws).tokens.getLast? = some .closeBracket := by
  cases ws with
  | nil => rfl
  | cons w ws =>
    have hsplit : (array (w :: ws)).tokens
        = (.openBracket :: w.tokensOnto (elementsOnto [] ws)) ++ [.closeBracket] := by
      rw [List.cons_append, ← tokensOnto_append, ← elementsOnto_append]
      rfl
    rw [hsplit, List.getLast?_concat]

/-- An object ends with its brace. -/
theorem getLast?_object (ms : List (Option String × Script)) :
    (object ms).tokens.getLast? = some .closeBrace := by
  cases ms with
  | nil => rfl
  | cons m ms =>
    obtain ⟨k, w⟩ := m
    have hsplit : (object ((k, w) :: ms)).tokens
        = (.openBrace :: .string k :: .colon :: w.tokensOnto (membersOnto [] ms))
          ++ [.closeBrace] := by
      rw [List.cons_append, List.cons_append, List.cons_append, ← tokensOnto_append,
        ← membersOnto_append]
      rfl
    rw [hsplit, List.getLast?_concat]

/-! ## Scripts are read -/

open Document (Frame Reader)
open Document.Reader (run? supply)

theorem supply_elements (frames : List Frame) (done : List (Option Json)) (w : Script) :
    supply (.elements done :: frames) w.document = ⟨frames, .afterElement (w.value? :: done)⟩ := by
  simp only [supply, value?_document]

theorem supply_members (frames : List Frame) (done : List (Option String × Option Json))
    (k : Option String) (w : Script) :
    supply (.members done k :: frames) w.document
      = ⟨frames, .afterMember ((k, w.value?) :: done)⟩ := by
  simp only [supply, value?_document]

/-- A script starts with another token than one that closes a list. -/
theorem run?_firstElement (frames : List Frame) (w : Script) (rest : List Token) :
    run? ⟨frames, .firstElement⟩ (w.tokensOnto rest)
      = run? ⟨.elements [] :: frames, .value⟩ (w.tokensOnto rest) := by
  cases w with
  | array ws => cases ws <;> rfl
  | object ms =>
    cases ms with
    | nil => rfl
    | cons m ms => rfl
  | _ => rfl

mutual

/-- The tokens of a script supply its outermost parts. -/
theorem run?_tokensOnto : ∀ (w : Script) (frames : List Frame) (rest : List Token),
    run? ⟨frames, .value⟩ (w.tokensOnto rest) = run? (supply frames w.document) rest
  | .null, _, _ => rfl
  | .bool _, _, _ => rfl
  | .number _, _, _ => rfl
  | .string _, _, _ => rfl
  | .array [], _, _ => rfl
  | .array (w :: ws), frames, rest => by
    have hopen : run? ⟨frames, .value⟩ (tokensOnto rest (.array (w :: ws)))
        = run? ⟨frames, .firstElement⟩
          (w.tokensOnto (elementsOnto (.closeBracket :: rest) ws)) := rfl
    rw [hopen, run?_firstElement, run?_tokensOnto w, supply_elements]
    exact run?_elementsOnto ws frames [w.value?] rest
  | .object [], _, _ => rfl
  | .object ((k, w) :: ms), frames, rest => by
    have hopen : run? ⟨frames, .value⟩ (tokensOnto rest (.object ((k, w) :: ms)))
        = run? ⟨.members [] k :: frames, .value⟩
          (w.tokensOnto (membersOnto (.closeBrace :: rest) ms)) := rfl
    rw [hopen, run?_tokensOnto w, supply_members]
    exact run?_membersOnto ms frames [(k, w.value?)] rest

theorem run?_elementsOnto : ∀ (ws : List Script) (frames : List Frame)
    (done : List (Option Json)) (rest : List Token),
    run? ⟨frames, .afterElement done⟩ (elementsOnto (.closeBracket :: rest) ws)
      = run? (supply frames (.elements (done.reverse ++ ws.map value?))) rest
  | [], frames, done, rest => by
    rw [List.map_nil, List.append_nil]
    rfl
  | w :: ws, frames, done, rest => by
    have hcomma : run? ⟨frames, .afterElement done⟩ (elementsOnto (.closeBracket :: rest) (w :: ws))
        = run? ⟨.elements done :: frames, .value⟩
          (w.tokensOnto (elementsOnto (.closeBracket :: rest) ws)) := rfl
    rw [hcomma, run?_tokensOnto w, supply_elements, run?_elementsOnto ws, List.reverse_cons,
      List.append_assoc, List.map_cons]
    rfl

theorem run?_membersOnto : ∀ (ms : List (Option String × Script)) (frames : List Frame)
    (done : List (Option String × Option Json)) (rest : List Token),
    run? ⟨frames, .afterMember done⟩ (membersOnto (.closeBrace :: rest) ms)
      = run? (supply frames (.members (done.reverse ++ ms.map fun m => (m.1, m.2.value?)))) rest
  | [], frames, done, rest => by
    rw [List.map_nil, List.append_nil]
    rfl
  | (k, w) :: ms, frames, done, rest => by
    have hcomma : run? ⟨frames, .afterMember done⟩
          (membersOnto (.closeBrace :: rest) ((k, w) :: ms))
        = run? ⟨.members done k :: frames, .value⟩
          (w.tokensOnto (membersOnto (.closeBrace :: rest) ms)) := rfl
    rw [hcomma, run?_tokensOnto w, supply_members, run?_membersOnto ms, List.reverse_cons,
      List.append_assoc, List.map_cons]
    rfl

end

theorem ofTokens?_tokens (w : Script) : Document.ofTokens? w.tokens = some w.document := by
  rw [Document.ofTokens?, tokens, run?_tokensOnto]
  rfl

/-! ## Only scripts are read -/

/-- The reader ends with a whole document. -/
def Completes (r : Reader) (ts : List Token) (d : Document) : Prop :=
  ∃ frames, run? r ts = some ⟨frames, .nothing d⟩

variable {frames : List Frame} {ts : List Token} {d : Document}

/-- A reader that may go on takes a step. -/
theorem Completes.step {r : Reader} (h : Completes r ts d) (hr : ∀ d, r.expect ≠ .nothing d) :
    ∃ t us, ts = t :: us ∧ ∃ r', r.step? t = some r' ∧ Completes r' us d := by
  obtain ⟨frames, h⟩ := h
  cases ts with
  | nil =>
    cases h
    exact absurd rfl (hr d)
  | cons t us =>
    rw [run?] at h
    split at h
    · rename_i r' hr'
      exact ⟨t, us, rfl, r', hr', frames, h⟩
    · cases h

theorem Completes.firstElement (h : Completes ⟨frames, .firstElement⟩ ts d) :
    (∃ rest, ts = .closeBracket :: rest ∧ Completes (supply frames (.elements [])) rest d)
      ∨ Completes ⟨.elements [] :: frames, .value⟩ ts d := by
  obtain ⟨t, us, rfl, r, hr, hrest⟩ := h.step fun d he => by cases he
  simp only [Reader.step?] at hr
  split at hr
  · rename_i ht
    cases hr
    exact .inl ⟨us, by rw [ht], hrest⟩
  · obtain ⟨frames', hrun⟩ := hrest
    refine .inr ⟨frames', ?_⟩
    simp only [run?, Reader.step?, hr]
    exact hrun

theorem Completes.key {done : List (Option String × Option Json)}
    (h : Completes ⟨frames, .key done⟩ ts d) :
    ∃ k rest, ts = .string k :: .colon :: rest ∧ rest.length < ts.length
      ∧ Completes ⟨.members done k :: frames, .value⟩ rest d := by
  obtain ⟨t, us, rfl, r, hr, hrest⟩ := h.step fun d he => by cases he
  simp only [Reader.step?] at hr
  split at hr
  · rename_i k
    cases hr
    obtain ⟨t, us, rfl, r, hr, hrest⟩ := hrest.step fun d he => by cases he
    simp only [Reader.step?] at hr
    split at hr
    · rename_i ht
      cases hr
      exact ⟨k, us, by rw [ht], Nat.lt_succ_of_lt (Nat.lt_succ_self _), hrest⟩
    · cases hr
  · cases hr

theorem Completes.firstKey (h : Completes ⟨frames, .firstKey⟩ ts d) :
    (∃ rest, ts = .closeBrace :: rest ∧ Completes (supply frames (.members [])) rest d)
      ∨ Completes ⟨frames, .key []⟩ ts d := by
  have hstep := h.step fun d he => by cases he
  obtain ⟨t, us, rfl, r, hr, hrest⟩ := hstep
  simp only [Reader.step?] at hr
  split at hr
  · cases hr
    exact .inl ⟨us, rfl, hrest⟩
  · cases hr
    exact .inr hrest
  · cases hr

-- The three statements go together by induction on how many tokens are left: whatever one part
-- leaves over is where the next one starts, so each has to say that it used some up.
mutual

/-- A reader that expects a value and ends with a document has read a script first. -/
theorem exists_value {frames : List Frame} {ts : List Token} (h : Completes ⟨frames, .value⟩ ts d) :
    ∃ w rest, rest.length < ts.length ∧ ts = tokensOnto rest w
      ∧ Completes (supply frames w.document) rest d := by
  obtain ⟨t, us, hts, r, hr, hrest⟩ := h.step fun d he => by cases he
  have hlt : us.length < ts.length := by rw [hts]; exact Nat.lt_succ_self _
  cases t with
  | null => cases hr; exact ⟨.null, us, hlt, hts, hrest⟩
  | bool b => cases hr; exact ⟨.bool b, us, hlt, hts, hrest⟩
  | number n => cases hr; exact ⟨.number n, us, hlt, hts, hrest⟩
  | string s => cases hr; exact ⟨.string s, us, hlt, hts, hrest⟩
  | openBracket =>
    cases hr
    rcases hrest.firstElement with ⟨rest, hus, hrest⟩ | hrest
    · have hlt' : rest.length < us.length := by rw [hus]; exact Nat.lt_succ_self _
      exact ⟨.array [], rest, by omega, by rw [hts, hus]; rfl, hrest⟩
    · obtain ⟨w, vs, hvs, hw, hrest⟩ := exists_value hrest
      rw [supply_elements] at hrest
      obtain ⟨ws, rest, hlt', hws, hrest⟩ := exists_elements hrest
      exact ⟨.array (w :: ws), rest, by omega, by rw [hts, hw, hws]; rfl, hrest⟩
  | openBrace =>
    cases hr
    rcases hrest.firstKey with ⟨rest, hus, hrest⟩ | hrest
    · have hlt' : rest.length < us.length := by rw [hus]; exact Nat.lt_succ_self _
      exact ⟨.object [], rest, by omega, by rw [hts, hus]; rfl, hrest⟩
    · obtain ⟨k, vs, hus, hvs, hrest⟩ := hrest.key
      obtain ⟨w, xs, hxs, hw, hrest⟩ := exists_value hrest
      rw [supply_members] at hrest
      obtain ⟨ms, rest, hlt', hms, hrest⟩ := exists_members hrest
      exact ⟨.object ((k, w) :: ms), rest, by omega, by rw [hts, hus, hw, hms]; rfl, hrest⟩
  | closeBracket => cases hr
  | closeBrace => cases hr
  | comma => cases hr
  | colon => cases hr
termination_by ts.length
decreasing_by all_goals omega

theorem exists_elements {frames : List Frame} {ts : List Token} {done : List (Option Json)}
    (h : Completes ⟨frames, .afterElement done⟩ ts d) :
    ∃ ws rest, rest.length < ts.length ∧ ts = elementsOnto (.closeBracket :: rest) ws
      ∧ Completes (supply frames (.elements (done.reverse ++ ws.map value?))) rest d := by
  obtain ⟨t, us, hts, r, hr, hrest⟩ := h.step fun d he => by cases he
  have hlt : us.length < ts.length := by rw [hts]; exact Nat.lt_succ_self _
  simp only [Reader.step?] at hr
  split at hr
  · rename_i ht
    cases hr
    refine ⟨[], us, hlt, by rw [hts, ht]; rfl, ?_⟩
    rw [List.map_nil, List.append_nil]
    exact hrest
  · split at hr
    · rename_i ht
      cases hr
      obtain ⟨w, vs, hvs, hw, hrest⟩ := exists_value hrest
      rw [supply_elements] at hrest
      obtain ⟨ws, rest, hlt', hws, hrest⟩ := exists_elements hrest
      rw [List.reverse_cons, List.append_assoc] at hrest
      exact ⟨w :: ws, rest, by omega, by rw [hts, ht, hw, hws]; rfl, hrest⟩
    · cases hr
termination_by ts.length
decreasing_by all_goals omega

theorem exists_members {frames : List Frame} {ts : List Token}
    {done : List (Option String × Option Json)} (h : Completes ⟨frames, .afterMember done⟩ ts d) :
    ∃ ms rest, rest.length < ts.length ∧ ts = membersOnto (.closeBrace :: rest) ms
      ∧ Completes (supply frames (.members (done.reverse ++ ms.map fun m => (m.1, m.2.value?))))
        rest d := by
  obtain ⟨t, us, hts, r, hr, hrest⟩ := h.step fun d he => by cases he
  have hlt : us.length < ts.length := by rw [hts]; exact Nat.lt_succ_self _
  simp only [Reader.step?] at hr
  split at hr
  · rename_i ht
    cases hr
    refine ⟨[], us, hlt, by rw [hts, ht]; rfl, ?_⟩
    rw [List.map_nil, List.append_nil]
    exact hrest
  · split at hr
    · rename_i ht
      cases hr
      obtain ⟨k, vs, hus, hvs, hrest⟩ := hrest.key
      obtain ⟨w, xs, hxs, hw, hrest⟩ := exists_value hrest
      rw [supply_members] at hrest
      obtain ⟨ms, rest, hlt', hms, hrest⟩ := exists_members hrest
      rw [List.reverse_cons, List.append_assoc] at hrest
      exact ⟨(k, w) :: ms, rest, by omega, by rw [hts, ht, hus, hw, hms]; rfl, hrest⟩
    · cases hr
termination_by ts.length
decreasing_by all_goals omega

end

/-- Tokens that are read as a document are those of a script. -/
theorem exists_of_ofTokens? (h : Document.ofTokens? ts = some d) :
    ∃ w : Script, w.tokens = ts ∧ w.document = d := by
  have hcompletes : Completes ⟨[], .value⟩ ts d := by
    rw [Document.ofTokens?] at h
    split at h
    · rename_i frames d' hrun
      cases h
      exact ⟨frames, hrun⟩
    · cases h
  obtain ⟨w, rest, -, rfl, frames, hrest⟩ := exists_value hcompletes
  cases rest with
  | nil =>
    cases hrest
    exact ⟨w, rfl, rfl⟩
  | cons t rest => cases hrest

/-- No token may follow those of a script. -/
theorem eq_nil_of_ofTokens? {w : Script} (h : Document.ofTokens? (w.tokens ++ ts) = some d) :
    ts = [] := by
  rw [tokens, ← tokensOnto_append, List.nil_append, Document.ofTokens?, run?_tokensOnto] at h
  cases ts with
  | nil => rfl
  | cons t ts => cases h

/-! ## Texts -/

open Token (Spells Ended Separated)

mutual

/-- Behind a number there is the end of a value. -/
theorem separated_tokensOnto : ∀ (w : Script) {rest : List Token}, Ended rest → Separated rest →
    Separated (w.tokensOnto rest)
  | .null, _, _, hr => .plain rfl hr
  | .bool _, _, _, hr => .plain rfl hr
  | .number _, _, hend, hr => .cons (fun _ => hend) hr
  | .string _, _, _, hr => .plain rfl hr
  | .array [], _, _, hr => .plain rfl (.plain rfl hr)
  | .array (w :: ws), _, _, hr =>
    have hclose := separated_elementsOnto ws (Token.ended_closeBracket _) (.plain rfl hr)
    .plain rfl (separated_tokensOnto w hclose.1 hclose.2)
  | .object [], _, _, hr => .plain rfl (.plain rfl hr)
  | .object ((_, w) :: ms), _, _, hr =>
    have hclose := separated_membersOnto ms (Token.ended_closeBrace _) (.plain rfl hr)
    .plain rfl (.plain rfl (.plain rfl (separated_tokensOnto w hclose.1 hclose.2)))

theorem separated_elementsOnto : ∀ (ws : List Script) {rest : List Token}, Ended rest →
    Separated rest → Ended (elementsOnto rest ws) ∧ Separated (elementsOnto rest ws)
  | [], _, hend, hr => ⟨hend, hr⟩
  | w :: ws, _, hend, hr =>
    have htail := separated_elementsOnto ws hend hr
    ⟨.inl rfl, .plain rfl (separated_tokensOnto w htail.1 htail.2)⟩

theorem separated_membersOnto : ∀ (ms : List (Option String × Script)) {rest : List Token},
    Ended rest → Separated rest → Ended (membersOnto rest ms) ∧ Separated (membersOnto rest ms)
  | [], _, hend, hr => ⟨hend, hr⟩
  | (_, w) :: ms, _, hend, hr =>
    have htail := separated_membersOnto ms hend hr
    ⟨.inl rfl, .plain rfl (.plain rfl (.plain rfl (separated_tokensOnto w htail.1 htail.2)))⟩

end

theorem separated_tokens (w : Script) : Separated w.tokens :=
  separated_tokensOnto w trivial .nil

/-- Whatever spells a script is read as its outermost parts. -/
theorem ofGlyphs?_eq {w : Script} {gs : List Glyph} (h : Spells w.tokens gs) :
    Document.ofGlyphs? gs = some w.document := by
  rw [Document.ofGlyphs?, h.lex?_eq w.separated_tokens]
  exact w.ofTokens?_tokens

/-- Whatever is read spells a script. -/
theorem exists_of_ofGlyphs? {gs : List Glyph} (h : Document.ofGlyphs? gs = some d) :
    ∃ w : Script, Spells w.tokens gs ∧ w.document = d := by
  rw [Document.ofGlyphs?] at h
  split at h
  · rename_i ts hlex
    obtain ⟨w, rfl, hw⟩ := exists_of_ofTokens? h
    exact ⟨w, Token.spells_of_lex? hlex, hw⟩
  · cases h

end Script

end Goalbase
