import Mathlib.Data.List.Chain
import ShardedQuery.IndexPath

/-!
# The language of index paths

A path is written as tokens with dots between them. A `Token` is a field name with brackets behind
it, `keys()` or `values()`, and it stands for one or more steps. `IndexPath.IsPathText` gives the
grammar and `IndexPath.parse_eq_ok_iff` says that reading a text finds the steps of its tokens.
Conversely, the steps that tokens can stand for are those of `IndexPath.IsWritable`
(`IndexPath.exists_tokens`), so these can be read back from their text.
-/

namespace ShardedQuery

open List

variable {p : IndexPath} {name : String} {c : Char} {ts : List (List Char)} {t : List Char}
  {n : Nat}

/-- Brackets can stand behind the step in the text of a path. -/
def PathStep.takesBrackets : PathStep → Bool
  | .field _ | .elements => true
  | _ => false

namespace IndexPath

/-! ## Grammar -/

/-- A field name in a path: letters, digits and underscores of ASCII, at least one. -/
def IsIdentifier (name : String) : Prop :=
  name ≠ "" ∧ ∀ c ∈ name.toList,
    ('A' ≤ c ∧ c ≤ 'Z') ∨ ('a' ≤ c ∧ c ≤ 'z') ∨ ('0' ≤ c ∧ c ≤ '9') ∨ c = '_'

/-- What stands between two dots of a path. -/
inductive Token where
  /-- A field with bracket pairs behind it. -/
  | field (name : String) (brackets : Nat)
  | keys
  | values

namespace Token

def text : Token → String
  | field name n => name ++ String.join (List.replicate n "[]")
  | keys => "keys()"
  | values => "values()"

def steps : Token → List PathStep
  | field name n => .field name :: List.replicate n .elements
  | keys => [.keys]
  | values => [.values]

def IsValid : Token → Prop
  | field name _ => IsIdentifier name
  | _ => True

end Token

/-- A text of the language: tokens with dots between them, the first one a field. -/
def IsPathText (text : String) : Prop :=
  ∃ (name : String) (brackets : Nat) (rest : List Token),
    IsIdentifier name ∧ (∀ t ∈ rest, t.IsValid) ∧
      text = ".".intercalate ((Token.field name brackets :: rest).map Token.text)

/-! ## Names -/

theorem isNameChar_iff : isNameChar c ↔
    ('A' ≤ c ∧ c ≤ 'Z') ∨ ('a' ≤ c ∧ c ≤ 'z') ∨ ('0' ≤ c ∧ c ≤ '9') ∨ c = '_' := by
  simp only [isNameChar, Char.isAlphanum]
  delta Char.isAlpha Char.isUpper Char.isLower
  simp [Char.isDigit, Char.le_def, or_assoc]

theorem isIdentifier_iff {name : List Char} :
    IsIdentifier (String.ofList name) ↔ name ≠ [] ∧ name.all isNameChar := by
  simp [IsIdentifier, isNameChar_iff, String.ofList_eq_empty_iff]

/-! ## Tokens -/

/-- Bracket pairs, read from the end. -/
def closing (n : Nat) : List Char := (List.replicate n [']', '[']).flatten

theorem closing_succ (n : Nat) : closing (n + 1) = ']' :: '[' :: closing n := by
  simp [closing, replicate_succ]

theorem reverse_text_field (name : String) (n : Nat) :
    (Token.field name n).text.toList.reverse = closing n ++ name.toList.reverse := by
  have hpair : flatMap String.toList (List.replicate n "[]") =
      (List.replicate n ['[', ']']).flatten := by
    rw [flatMap_def, map_replicate]
    rfl
  rw [Token.text, String.toList_append, reverse_append, String.toList_join, hpair,
    reverse_flatten, map_replicate, reverse_replicate]
  rfl

theorem eq_of_dropBrackets (token : List Char) :
    token = closing (dropBrackets token).1 ++ (dropBrackets token).2 := by
  fun_induction dropBrackets token with
  | case1 rest n name h ih =>
    rw [h] at ih
    rw [closing_succ]
    exact congrArg (']' :: '[' :: ·) ih
  | case2 => rfl

theorem dropBrackets_closing (n : Nat) {name : List Char} (h : ∀ c ∈ name, isNameChar c) :
    dropBrackets (closing n ++ name) = (n, name) := by
  induction n with
  | zero =>
    have hno (rest : List Char) (heq : name = ']' :: '[' :: rest) : False :=
      absurd (h ']' (heq ▸ .head _)) (by decide)
    exact dropBrackets.eq_2 name hno
  | succ n ih => rw [closing_succ, cons_append, cons_append, dropBrackets, ih]

theorem IsIdentifier.isNameChar (h : IsIdentifier name) (hc : c ∈ name.toList) : isNameChar c :=
  isNameChar_iff.2 (h.2 c hc)

theorem mem_text_field (h : IsIdentifier name) (hc : c ∈ (Token.field name n).text.toList) :
    isNameChar c ∨ c = '[' ∨ c = ']' := by
  rw [Token.text, String.toList_append, mem_append] at hc
  obtain hc | hc := hc
  · exact .inl (h.isNameChar hc)
  · rw [String.toList_join, mem_flatMap] at hc
    obtain ⟨pair, hpair, hc⟩ := hc
    obtain rfl := eq_of_mem_replicate hpair
    exact .inr (by simpa using hc)

theorem text_field_ne {name : String} {n : Nat} (h : IsIdentifier name) {s : String}
    (hs : '(' ∈ s.toList) : (Token.field name n).text ≠ s := by
  rintro rfl
  obtain h | h | h := mem_text_field h hs
  · cases h
  · cases h
  · cases h

/-- A token stands for its steps. -/
theorem stepsOfToken?_eq_some_iff {s : String} {steps : List PathStep} :
    stepsOfToken? s = some steps ↔ ∃ t : Token, t.IsValid ∧ t.text = s ∧ t.steps = steps := by
  constructor
  · intro h
    unfold stepsOfToken? at h
    split at h
    · next hs =>
      cases h
      exact ⟨.keys, trivial, hs.symm, rfl⟩
    · split at h
      · next hs =>
        cases h
        exact ⟨.values, trivial, hs.symm, rfl⟩
      · have heq := eq_of_dropBrackets s.toList.reverse
        generalize dropBrackets s.toList.reverse = dropped at h heq
        obtain ⟨n, name⟩ := dropped
        obtain ⟨hname, heq'⟩ := Option.ite_none_left_eq_some.1 h
        refine ⟨.field (String.ofList name.reverse) n, ?_, ?_, Option.some.inj heq'⟩
        · refine isIdentifier_iff.2 ?_
          simpa using hname
        · rw [← String.toList_inj, ← reverse_inj, reverse_text_field, heq,
            String.toList_ofList, reverse_reverse]
  · rintro ⟨t, ht, rfl, rfl⟩
    cases t with
    | keys | values => rfl
    | field name n =>
      have hname : name.toList ≠ [] ∧ name.toList.all isNameChar := by
        rw [← isIdentifier_iff, String.ofList_toList]
        exact ht
      rw [stepsOfToken?, if_neg (text_field_ne ht (by decide)),
        if_neg (text_field_ne ht (by decide)), reverse_text_field,
        dropBrackets_closing n fun c hc => ht.isNameChar (mem_reverse.1 hc)]
      simp [hname, Token.steps]

/-! ## Dots -/

theorem tokens_ne_nil (l : List Char) : tokens l ≠ [] := by
  fun_induction tokens l <;> simp

/-- The pieces between the dots make up the text. -/
theorem intercalate_tokens (l : List Char) : intercalate ['.'] (tokens l) = l := by
  fun_induction tokens l with
  | case1 => rfl
  | case2 cs ih =>
    obtain ⟨t, ts, heq⟩ := exists_cons_of_ne_nil (tokens_ne_nil cs)
    rw [heq] at ih ⊢
    rw [intercalate_cons_cons, ih]
    rfl
  | case3 c cs hc hnil ih => exact absurd hnil (tokens_ne_nil cs)
  | case4 c cs hc t ts heq ih =>
    rw [heq] at ih
    cases ts with
    | nil =>
      rw [intercalate_singleton] at ih ⊢
      rw [ih]
    | cons u ts =>
      rw [intercalate_cons_cons] at ih ⊢
      exact congrArg (c :: ·) ih

theorem tokens_of_not_mem (h : '.' ∉ t) : tokens t = [t] := by
  induction t with
  | nil => rfl
  | cons c t ih =>
    rw [mem_cons, not_or] at h
    rw [tokens, if_neg (Ne.symm h.1), ih h.2]

theorem tokens_append {l : List Char} (h : '.' ∉ t) : tokens (t ++ '.' :: l) = t :: tokens l := by
  induction t with
  | nil => rfl
  | cons c t ih =>
    rw [mem_cons, not_or] at h
    rw [cons_append, tokens, if_neg (Ne.symm h.1), ih h.2]

theorem tokens_intercalate (hne : ts ≠ []) (h : ∀ t ∈ ts, '.' ∉ t) :
    tokens (intercalate ['.'] ts) = ts := by
  induction ts with
  | nil => exact absurd rfl hne
  | cons t ts ih =>
    cases ts with
    | nil =>
      rw [intercalate_singleton]
      exact tokens_of_not_mem (h t (.head _))
    | cons u ts =>
      rw [intercalate_cons_cons, append_assoc, singleton_append,
        tokens_append (h t (.head _)), ih (cons_ne_nil u ts) fun v hv => h v (.tail _ hv)]

theorem not_mem_text {t : Token} (h : t.IsValid) : '.' ∉ t.text.toList := by
  cases t with
  | keys | values => decide
  | field name n =>
    intro hdot
    obtain h | h | h := mem_text_field h hdot
    · cases h
    · cases h
    · cases h

/-! ## Writing -/

theorem tailText_append (a b : List PathStep) : tailText (a ++ b) = tailText a ++ tailText b := by
  induction a with
  | nil => simp [tailText]
  | cons s a ih => cases s <;> simp [tailText, ih, String.append_assoc]

theorem tailText_replicate (n : Nat) :
    tailText (List.replicate n .elements) = String.join (List.replicate n "[]") := by
  induction n with
  | zero => rfl
  | succ n ih => rw [replicate_succ, replicate_succ, tailText, ih, String.join_cons]

theorem tailText_steps (t : Token) : tailText t.steps = "." ++ t.text := by
  cases t with
  | keys | values => rfl
  | field name n => rw [Token.steps, tailText, tailText_replicate, Token.text, String.append_assoc]

theorem append_tailText (first : String) (rest : List Token) :
    first ++ tailText (rest.flatMap Token.steps) =
      ".".intercalate (first :: rest.map Token.text) := by
  induction rest generalizing first with
  | nil => simp [tailText]
  | cons t rest ih =>
    rw [flatMap_cons, tailText_append, tailText_steps, map_cons,
      String.intercalate_cons_cons, ← ih]
    simp only [String.append_assoc]

theorem text_eq_intercalate {rest : List Token}
    (h : p.steps = (Token.field name n :: rest).flatMap Token.steps) :
    p.text = ".".intercalate ((Token.field name n :: rest).map Token.text) := by
  rw [map_cons, ← append_tailText, Token.text, String.append_assoc, ← tailText_replicate,
    ← tailText_append, text, h]
  rfl

/-! ## Reading -/

theorem stepsOfTokens_eq_ok_iff {text : String} {steps : List PathStep} :
    stepsOfTokens text ts = .ok steps ↔ ∃ toks : List Token, (∀ t ∈ toks, t.IsValid) ∧
      toks.map (·.text.toList) = ts ∧ toks.flatMap Token.steps = steps := by
  induction ts generalizing steps with
  | nil =>
    constructor
    · intro h
      cases h
      exact ⟨[], by simp, rfl, rfl⟩
    · rintro ⟨toks, -, hnil, rfl⟩
      rw [map_eq_nil_iff.1 hnil]
      rfl
  | cons t ts ih =>
    constructor
    · intro h
      simp only [stepsOfTokens] at h
      split at h
      · cases h
      · next first hfirst =>
        obtain ⟨token, hvalid, htext, rfl⟩ := stepsOfToken?_eq_some_iff.1 hfirst
        cases hrest : stepsOfTokens text ts with
        | error e => rw [hrest] at h; cases h
        | ok rest =>
          rw [hrest] at h
          cases h
          obtain ⟨toks, hall, rfl, rfl⟩ := ih.1 hrest
          refine ⟨token :: toks, by simpa using ⟨hvalid, hall⟩, ?_, rfl⟩
          rw [map_cons, htext, String.toList_ofList]
    · rintro ⟨toks, hall, hmap, rfl⟩
      obtain ⟨token, rest, rfl, rfl, rfl⟩ := map_eq_cons_iff.1 hmap
      rw [forall_mem_cons] at hall
      have hfirst := stepsOfToken?_eq_some_iff.2 ⟨token, hall.1, rfl, rfl⟩
      rw [stepsOfTokens, String.ofList_toList]
      simp only [hfirst, ih.2 ⟨rest, hall.2, rfl, rfl⟩]
      rfl

theorem toList_intercalate_text (toks : List Token) :
    (".".intercalate (toks.map Token.text)).toList =
      intercalate ['.'] (toks.map (·.text.toList)) := by
  rw [String.toList_intercalate, map_map]
  rfl

/-- The steps of tokens start with a field if the tokens do. -/
theorem exists_field_of_steps {toks : List Token} {steps : List PathStep}
    (h : toks.flatMap Token.steps = .field name :: steps) :
    ∃ n rest, toks = .field name n :: rest := by
  cases toks with
  | nil => cases h
  | cons t rest =>
    cases t with
    | field _ n =>
      cases h
      exact ⟨n, rest, rfl⟩
    | keys | values => cases h

/-- A text is read as a path exactly if it is made of tokens for the steps of the path. -/
theorem parse_eq_ok_iff {text : String} :
    parse text = .ok p ↔ ∃ (name : String) (brackets : Nat) (rest : List Token),
      IsIdentifier name ∧ (∀ t ∈ rest, t.IsValid) ∧
      text = ".".intercalate ((Token.field name brackets :: rest).map Token.text) ∧
      p.steps = (Token.field name brackets :: rest).flatMap Token.steps := by
  constructor
  · intro h
    unfold parse at h
    split at h
    · cases h
    · split at h
      · cases h
      · next name steps hsteps =>
        cases h
        obtain ⟨toks, hall, hmap, hflat⟩ := stepsOfTokens_eq_ok_iff.1 hsteps
        obtain ⟨n, rest, rfl⟩ := exists_field_of_steps hflat
        rw [forall_mem_cons] at hall
        refine ⟨name, n, rest, hall.1, hall.2, ?_, hflat.symm⟩
        rw [← String.toList_inj, toList_intercalate_text, hmap, intercalate_tokens]
      · cases h
  · rintro ⟨name, n, rest, hname, hrest, htext, hsteps⟩
    have hall : ∀ t ∈ Token.field name n :: rest, t.IsValid := forall_mem_cons.2 ⟨hname, hrest⟩
    have htokens : tokens text.toList = (Token.field name n :: rest).map (·.text.toList) := by
      rw [htext, toList_intercalate_text]
      refine tokens_intercalate (cons_ne_nil _ _) fun t ht => ?_
      obtain ⟨token, htoken, rfl⟩ := mem_map.1 ht
      exact not_mem_text (hall token htoken)
    have hread : stepsOfTokens text (tokens text.toList) = .ok p.steps :=
      stepsOfTokens_eq_ok_iff.2 ⟨_, hall, htokens.symm, hsteps.symm⟩
    have hne : ¬text.isEmpty := by
      rw [String.isEmpty_iff, htext, map_cons, ← append_tailText, Token.text]
      simp [hname.1]
    rw [parse, if_neg hne, hread]
    obtain ⟨steps⟩ := p
    obtain rfl : steps = _ := hsteps
    rfl

/-! ## Paths that can be read back -/

/-- The path starts with a field, its field names are identifiers, and it takes elements only where
brackets can stand in its text. -/
def IsWritable (p : IndexPath) : Prop :=
  (∃ name rest, p.steps = .field name :: rest) ∧
  (∀ name, .field name ∈ p.steps → IsIdentifier name) ∧
  p.steps.IsChain fun step next => next = .elements → step.takesBrackets

/-- Steps are grouped into tokens; brackets at the start belong to the token before them. -/
theorem exists_tokens {steps : List PathStep} (hnames : ∀ name, .field name ∈ steps → IsIdentifier name)
    (hchain : steps.IsChain fun step next => next = .elements → step.takesBrackets) :
    ∃ (k : Nat) (toks : List Token), (∀ t ∈ toks, t.IsValid) ∧
      steps = List.replicate k .elements ++ toks.flatMap Token.steps := by
  induction steps with
  | nil => exact ⟨0, [], by simp, rfl⟩
  | cons step rest ih =>
    obtain ⟨k, toks, hall, heq⟩ := ih (fun name h => hnames name (.tail _ h)) hchain.tail
    -- no brackets behind the words for the parts of a map
    have hzero (h : step.takesBrackets = false) : k = 0 := by
      cases k with
      | zero => rfl
      | succ k =>
        rw [heq, replicate_succ, cons_append, isChain_cons_cons] at hchain
        rw [hchain.1 rfl] at h
        cases h
    cases step with
    | field name =>
      refine ⟨0, .field name k :: toks, ?_, ?_⟩
      · exact forall_mem_cons.2 ⟨hnames name (.head _), hall⟩
      · rw [heq]; rfl
    | elements =>
      refine ⟨k + 1, toks, hall, ?_⟩
      rw [heq]; rfl
    | keys =>
      obtain rfl := hzero rfl
      exact ⟨0, .keys :: toks, forall_mem_cons.2 ⟨trivial, hall⟩, congrArg _ heq⟩
    | values =>
      obtain rfl := hzero rfl
      exact ⟨0, .values :: toks, forall_mem_cons.2 ⟨trivial, hall⟩, congrArg _ heq⟩

/-- The steps of a writable path are those of tokens, the first one a field. -/
theorem IsWritable.exists_tokens (h : p.IsWritable) :
    ∃ (name : String) (brackets : Nat) (rest : List Token),
      IsIdentifier name ∧ (∀ t ∈ rest, t.IsValid) ∧
        p.steps = (Token.field name brackets :: rest).flatMap Token.steps := by
  obtain ⟨⟨name, steps, hp⟩, hnames, hchain⟩ := h
  rw [hp] at hnames hchain
  obtain ⟨k, toks, hall, heq⟩ := IndexPath.exists_tokens (fun n h => hnames n (.tail _ h)) hchain.tail
  refine ⟨name, k, toks, hnames name (.head _), hall, ?_⟩
  rw [hp, heq]
  rfl

theorem isIdentifier_of_mem_steps {toks : List Token} (h : ∀ t ∈ toks, t.IsValid)
    (hmem : .field name ∈ toks.flatMap Token.steps) : IsIdentifier name := by
  obtain ⟨t, ht, hstep⟩ := mem_flatMap.1 hmem
  have hvalid := h t ht
  cases t with
  | field =>
    obtain heq | hrep := mem_cons.1 hstep
    · cases heq
      exact hvalid
    · cases eq_of_mem_replicate hrep
  | keys | values => cases mem_singleton.1 hstep

theorem head?_steps_ne (toks : List Token) : (toks.flatMap Token.steps).head? ≠ some .elements := by
  cases toks with
  | nil => exact nofun
  | cons t toks => cases t <;> exact nofun

theorem isChain_steps (toks : List Token) :
    (toks.flatMap Token.steps).IsChain fun step next => next = .elements → step.takesBrackets := by
  induction toks with
  | nil => exact .nil
  | cons t toks ih =>
    rw [flatMap_cons, isChain_append]
    refine ⟨?_, ih, fun _ _ next hnext heq => absurd (heq ▸ hnext) (head?_steps_ne toks)⟩
    cases t with
    | field name n =>
      exact isChain_cons.2 ⟨fun _ _ _ => rfl, isChain_replicate_of_rel n fun _ => rfl⟩
    | keys | values => exact .singleton _

theorem isWritable_of_parse {text : String} (h : parse text = .ok p) :
    p.text = text ∧ p.IsWritable := by
  obtain ⟨name, n, rest, hname, hrest, htext, hsteps⟩ := parse_eq_ok_iff.1 h
  have hall : ∀ t ∈ Token.field name n :: rest, t.IsValid := forall_mem_cons.2 ⟨hname, hrest⟩
  refine ⟨htext ▸ text_eq_intercalate hsteps, ⟨name, _, hsteps⟩, fun m hm => ?_, ?_⟩
  · exact isIdentifier_of_mem_steps hall (hsteps ▸ hm)
  · exact hsteps ▸ isChain_steps _

theorem IsWritable.parse_text (h : p.IsWritable) : parse p.text = .ok p := by
  obtain ⟨name, n, rest, hname, hrest, hsteps⟩ := h.exists_tokens
  exact parse_eq_ok_iff.2 ⟨name, n, rest, hname, hrest, text_eq_intercalate hsteps, hsteps⟩

/-- Reading accepts the texts of the grammar and no others. What is read is written as the same text,
and a path can be read back from its text if it starts with a field, has identifiers for its field names
and takes elements only of fields and of elements; no other paths are read. -/
theorem parse_language :
    (∀ text, (∃ p, parse text = .ok p) ↔ IsPathText text) ∧
    (∀ text p, parse text = .ok p → p.text = text ∧ p.IsWritable) ∧
    ∀ p : IndexPath, p.IsWritable → parse p.text = .ok p := by
  refine ⟨fun text => ⟨?_, ?_⟩, fun text p => isWritable_of_parse, fun p => IsWritable.parse_text⟩
  · rintro ⟨p, h⟩
    obtain ⟨name, n, rest, hname, hrest, htext, -⟩ := parse_eq_ok_iff.1 h
    exact ⟨name, n, rest, hname, hrest, htext⟩
  · rintro ⟨name, n, rest, hname, hrest, htext⟩
    exact ⟨⟨_⟩, parse_eq_ok_iff.2 ⟨name, n, rest, hname, hrest, htext, rfl⟩⟩

theorem parse_language_nested :
    let p : IndexPath :=
      ⟨[.field "m_1", .elements, .elements, .values, .field "keys", .elements, .keys]⟩
    p.IsWritable ∧ parse "m_1[][].values().keys[].keys()" = .ok p ∧ IsPathText p.text := by
  intro p
  obtain ⟨hgrammar, -, hback⟩ := parse_language
  have hwritable : p.IsWritable := by
    refine ⟨⟨_, _, rfl⟩, fun name hname => ?_, by decide +kernel⟩
    simp only [p, mem_cons, PathStep.field.injEq, reduceCtorEq, not_mem_nil, or_false,
      false_or] at hname
    obtain rfl | rfl := hname
    · exact (@isIdentifier_iff ['m', '_', '1']).2 (by decide)
    · exact (@isIdentifier_iff ['k', 'e', 'y', 's']).2 (by decide)
  exact ⟨hwritable, hback p hwritable, (hgrammar _).1 ⟨p, hback p hwritable⟩⟩

end IndexPath

end ShardedQuery
