import DiceAlgebra.Proofs.Expr.Words

/-! Expressions as sequences of tokens. The text of an expression is cut into its tokens by looking at one
character at a time, so expressions with the same text have the same tokens. -/
namespace DiceAlgebra

open Grammar

/-- What stands between blanks, and the marks of parentheses. A parenthesis is opened by the name before it,
which is empty for a mere group. -/
inductive Token where
  | word (text : List Char)
  | symbol (op : BinaryOp)
  | opening (name : List Char)
  | comma
  | closing

namespace Token

/-- The operation that is written as this word between its operands. -/
def operation? (word : List Char) : Option BinaryOp :=
  [BinaryOp.sum, .difference, .product, .fraction, .power].find?
    (·.spelling = .between (String.ofList word))

def ofWord (word : List Char) : List Token :=
  if word = [] then [] else [(operation? word).elim (.word word) .symbol]

/-- The tokens of a text, whose first word has begun with `word`. -/
def scan (word : List Char) : List Char → List Token
  | [] => ofWord word
  | ' ' :: rest => ofWord word ++ scan [] rest
  | ',' :: rest => ofWord word ++ comma :: scan [] rest
  | ')' :: rest => ofWord word ++ closing :: scan [] rest
  | '(' :: rest => opening word :: scan [] rest
  | c :: rest => scan (word ++ [c]) rest

def EndsWord (rest : List Char) : Prop :=
  rest = [] ∨ ∃ more, rest = ' ' :: more ∨ rest = ',' :: more ∨ rest = ')' :: more

theorem scan_of_endsWord {word rest : List Char} (ends : EndsWord rest) :
    scan word rest = ofWord word ++ scan [] rest := by
  rcases ends with rfl | ⟨more, rfl | rfl | rfl⟩
  · simp [scan, ofWord]
  · simp [scan, ofWord]
  · simp [scan, ofWord]
  · simp [scan, ofWord]

private theorem ne_of_isPlain {c d : Char} (plain : isPlain c = true)
    (mark : d ∈ [' ', ',', ')', '(']) : c ≠ d := by
  rintro rfl
  simp only [List.mem_cons, List.not_mem_nil, or_false] at mark
  rcases mark with rfl | rfl | rfl | rfl <;> revert plain <;> decide

theorem scan_append {cs : List Char} (plain : ∀ c ∈ cs, isPlain c = true)
    (word rest : List Char) : scan word (cs ++ rest) = scan (word ++ cs) rest := by
  induction cs generalizing word with
  | nil => rw [List.append_nil, List.nil_append]
  | cons c cs ih =>
    have apart : ∀ d ∈ [' ', ',', ')', '('], c ≠ d := fun d =>
      ne_of_isPlain (plain c (List.mem_cons_self ..))
    have step : scan word (c :: (cs ++ rest)) = scan (word ++ [c]) (cs ++ rest) := by
      rw [scan]
      · exact apart ' ' (by simp)
      · exact apart ',' (by simp)
      · exact apart ')' (by simp)
      · exact apart '(' (by simp)
    rw [List.cons_append, step, ih fun d h => plain d (List.mem_cons_of_mem _ h), List.append_assoc,
      List.singleton_append]

theorem scan_opening {name : List Char} (plain : ∀ c ∈ name, isPlain c = true)
    (rest : List Char) : scan [] (name ++ '(' :: rest) = opening name :: scan [] rest := by
  rw [scan_append plain, List.nil_append, scan]

theorem operation?_eq_none {word : List Char} (h : IsWord word) : operation? word = none := by
  unfold operation?
  rw [List.find?_eq_none]
  intro op member spelled
  obtain ⟨c, solid, alphanum⟩ := h.solid
  have written : op.spelling = .between (String.ofList word) := of_decide_eq_true spelled
  have symbols : ∀ symbol, op.spelling = .between symbol → ∀ c ∈ symbol.toList, c.isAlphanum = false := by
    intro symbol written c member
    cases op <;> cases written <;> revert member <;> simp <;> rintro rfl <;> decide
  have symbol := symbols _ written c (by rwa [String.toList_ofList])
  rw [alphanum] at symbol
  cases symbol

theorem scan_word {word rest : List Char} (h : IsWord word) (ends : EndsWord rest) :
    scan [] (word ++ rest) = .word word :: scan [] rest := by
  obtain ⟨c, member, _⟩ := h.solid
  have some_char : word ≠ [] := List.ne_nil_of_mem member
  rw [scan_append h.plain, List.nil_append, scan_of_endsWord ends, ofWord, if_neg some_char,
    operation?_eq_none h]
  rfl

theorem scan_words {words : List (List Char)} (some_word : words ≠ []) (all : ∀ w ∈ words, IsWord w)
    {rest : List Char} (ends : EndsWord rest) :
    scan [] ([' '].intercalate words ++ rest) = words.map .word ++ scan [] rest := by
  induction words with
  | nil => exact absurd rfl some_word
  | cons w ws ih =>
    have first := all w (List.mem_cons_self ..)
    cases ws with
    | nil => simpa using scan_word first ends
    | cons v ws =>
      have blank : ∀ more, EndsWord (' ' :: more) := fun more => .inr ⟨more, .inl rfl⟩
      rw [List.intercalate_cons_cons, List.append_assoc, List.append_assoc, List.singleton_append,
        scan_word first (blank _), scan, ih (by simp) fun u h => all u (List.mem_cons_of_mem _ h)]
      rfl

theorem scan_symbol {op : BinaryOp} {symbol : String} (written : op.spelling = .between symbol)
    (rest : List Char) :
    scan [] (' ' :: (symbol.toList ++ ' ' :: rest)) = .symbol op :: scan [] rest := by
  cases op <;> cases written <;> simp [scan] <;> rfl

def enclose (wrap : Bool) (tokens : List Token) : List Token :=
  if wrap then opening [] :: (tokens ++ [closing]) else tokens

/-- The text is cut into these tokens, whatever comes after it. -/
def Writes (text : String) (tokens : List Token) : Prop :=
  ∀ rest, EndsWord rest → scan [] (text.toList ++ rest) = tokens ++ scan [] rest

theorem writes_call {name x : String} {xs : List Token}
    (plain : ∀ c ∈ name.toList, isPlain c = true) (written : Writes x xs) :
    Writes (name ++ "(" ++ x ++ ")") (opening name.toList :: (xs ++ [closing])) := by
  intro rest ends
  have chars : (name ++ "(" ++ x ++ ")").toList ++ rest =
      name.toList ++ '(' :: (x.toList ++ ')' :: rest) := by simp
  have closed : EndsWord (')' :: rest) := .inr ⟨rest, .inr (.inr rfl)⟩
  rw [chars, scan_opening plain, written _ closed]
  simp [scan, ofWord]

theorem writes_call_two {name a b : String} {as bs : List Token}
    (plain : ∀ c ∈ name.toList, isPlain c = true) (written_a : Writes a as)
    (written_b : Writes b bs) :
    Writes (name ++ "(" ++ a ++ ", " ++ b ++ ")")
      (opening name.toList :: (as ++ comma :: (bs ++ [closing]))) := by
  intro rest ends
  have chars : (name ++ "(" ++ a ++ ", " ++ b ++ ")").toList ++ rest =
      name.toList ++ '(' :: (a.toList ++ ',' :: ' ' :: (b.toList ++ ')' :: rest)) := by simp
  have separated : EndsWord (',' :: ' ' :: (b.toList ++ ')' :: rest)) := .inr ⟨_, .inr (.inl rfl)⟩
  have closed : EndsWord (')' :: rest) := .inr ⟨rest, .inr (.inr rfl)⟩
  rw [chars, scan_opening plain, written_a _ separated, scan, scan, written_b _ closed]
  simp [scan, ofWord]

theorem writes_between {op : BinaryOp} {symbol a b : String} {as bs : List Token}
    (spelled : op.spelling = .between symbol) (written_a : Writes a as) (written_b : Writes b bs) :
    Writes (a ++ " " ++ symbol ++ " " ++ b) (as ++ .symbol op :: bs) := by
  intro rest ends
  have chars : (a ++ " " ++ symbol ++ " " ++ b).toList ++ rest =
      a.toList ++ ' ' :: (symbol.toList ++ ' ' :: (b.toList ++ rest)) := by simp
  have blank : EndsWord (' ' :: (symbol.toList ++ ' ' :: (b.toList ++ rest))) :=
    .inr ⟨_, .inl rfl⟩
  rw [chars, written_a _ blank, scan_symbol spelled, written_b _ ends, List.append_assoc,
    List.cons_append]

theorem writes_enclose {text : String} {tokens : List Token} (written : Writes text tokens)
    (wrap : Bool) : Writes (Formula.enclose wrap text) (enclose wrap tokens) := by
  cases wrap with
  | false => exact written
  | true =>
    have group := @writes_call "" text tokens (by simp) written
    rwa [String.empty_append] at group

end Token

namespace Expr

open Token

def tokens : Expr → List Token
  | .leaf l => l.words.map .word
  | .unary op x => opening op.name.toList :: (tokens x ++ [closing])
  | .binary op a b =>
    match op.spelling with
    | .call name => opening name.toList :: (tokens a ++ comma :: (tokens b ++ [closing]))
    | .between _ =>
      enclose (op.wrapsLeft (precedence a)) (tokens a) ++
        symbol op :: enclose (op.wrapsRight (precedence b) (b.hasRoot op)) (tokens b)

def NamedByLetters (e : Expr) : Prop :=
  ∀ l ∈ e.leaves, l.NamedByLetters

theorem namedByLetters_binary {op : BinaryOp} {a b : Expr} (named : NamedByLetters (.binary op a b)) :
    NamedByLetters a ∧ NamedByLetters b :=
  ⟨fun l h => named l (List.mem_append_left _ h), fun l h => named l (List.mem_append_right _ h)⟩

private theorem plain_name (op : UnaryOp) : ∀ c ∈ op.name.toList, isPlain c = true := by
  have all : op.name.toList.all isPlain = true := by cases op <;> decide
  exact List.all_eq_true.mp all

private theorem plain_spelling {op : BinaryOp} {name : String} (h : op.spelling = .call name) :
    ∀ c ∈ name.toList, isPlain c = true := by
  have all : name.toList.all isPlain = true := by cases op <;> cases h <;> decide
  exact List.all_eq_true.mp all

theorem writes_text {e : Expr} (named : NamedByLetters e) : Writes (text e) (tokens e) := by
  induction e with
  | leaf l =>
    intro rest ends
    have word : l.NamedByLetters := named l (List.mem_singleton.mpr rfl)
    change scan [] (l.text.toList ++ rest) = _
    rw [Leaf.toList_text]
    exact scan_words l.words_ne_nil (fun w h => Leaf.isWord_of_mem_words word h) ends
  | unary op x ih => exact writes_call (plain_name op) (ih named)
  | binary op a b iha ihb =>
    have written_a := iha (namedByLetters_binary named).1
    have written_b := ihb (namedByLetters_binary named).2
    unfold text Formula.render tokens
    cases spelling : op.spelling with
    | call name => exact writes_call_two (plain_spelling spelling) written_a written_b
    | between symbol =>
      exact writes_between spelling (writes_enclose written_a _) (writes_enclose written_b _)

theorem tokens_eq_of_text_eq {e₁ e₂ : Expr} (named₁ : NamedByLetters e₁) (named₂ : NamedByLetters e₂)
    (same : text e₁ = text e₂) : tokens e₁ = tokens e₂ := by
  have ends : EndsWord [] := .inl rfl
  have first := writes_text named₁ [] ends
  have second := writes_text named₂ [] ends
  rw [← same, first] at second
  exact List.append_cancel_right second

end Expr
end DiceAlgebra
