import LambdaMachine.Proofs.Places

/-!
# Beginnings of programs

Tokens can be the first ones of a program in two ways: they are all of one, or a term is still
awaited behind them. `Awaits` says the second with the rules of the grammar, of which one
part has been taken away. Such tokens can always be completed (`Awaits.exists_derives`), and
whatever completes them goes on with a term that is closed under the abstractions that are
open there (`Awaits.exists_first`).

A text that is cut where a position can stand is spelled in two parts
(`Spells.exists_append`), and a line break joins any two texts (`Spells.append_line`).
-/

namespace LambdaMachine.Source

variable {tokens more : List Token} {token : Token} {before gap text rest : List Char} {c : Char}

/-! ### Tokens that end -/

theorem EndsBefore.append (hends : EndsBefore text token)
    (hrest : text = [] → EndsBefore rest token) : EndsBefore (text ++ rest) token := by
  cases text with
  | nil => exact hrest rfl
  | cons c text => cases token <;> exact hends

theorem EndsBefore.of_append (hends : EndsBefore (text ++ rest) token) :
    EndsBefore text token := by
  cases text with
  | nil => cases token <;> simp [EndsBefore]
  | cons c text => cases token <;> exact hends

theorem EndsBefore.of_unbroken (hrun : Unbroken (before ++ token.chars) rest) :
    EndsBefore rest token := by
  cases token with
  | dots index =>
      apply hrun '.' (.inl rfl)
      simp [Token.chars, List.replicate_succ']
  | colons extra =>
      apply hrun ':' (.inr rfl)
      simp [Token.chars, List.replicate_succ']
  | _ => trivial

theorem Unbroken.of_append (hrun : Unbroken (before ++ text) rest) : Unbroken text rest := by
  intro c hc hlast
  apply hrun c hc
  rw [List.getLast?_append, hlast]
  rfl

/-- A text begins with one token at most. -/
theorem chars_append_inj {token' : Token} {text' : List Char} (hends : EndsBefore text token)
    (hends' : EndsBefore text' token') (hsame : token.chars ++ text = token'.chars ++ text') :
    token = token' ∧ text = text' := by
  obtain ⟨first, tail, hchars, _, hread⟩ := exists_read? hends
  obtain ⟨first', tail', hchars', _, hread'⟩ := exists_read? hends'
  rw [hsame, hchars'] at hchars
  cases hchars
  rw [hread] at hread'
  cases hread'
  exact ⟨rfl, rfl⟩

/-! ### Trivia in front -/

theorem Trivia.append (hgap : Trivia gap) (htext : Trivia text) : Trivia (gap ++ text) := by
  induction hgap with
  | nil => exact htext
  | blank hblank _ ih => exact .blank hblank ih
  | lineBreak hbreak _ ih => exact .lineBreak hbreak ih
  | comment hwords hbreak _ ih =>
      rw [List.cons_append, List.append_assoc, List.cons_append]
      exact .comment hwords hbreak ih

/-- A line break ends a last comment. -/
theorem FinalTrivia.append_line (hgap : FinalTrivia gap) : Trivia (gap ++ ['\n']) := by
  cases hgap with
  | trivia htext => exact htext.append (.lineBreak (.inl rfl) .nil)
  | comment htext hwords =>
      rw [List.append_assoc]
      exact htext.append (.comment hwords (.inl rfl) .nil)

theorem CommentOpen.append (hopen : CommentOpen text) : CommentOpen (before ++ text) := by
  induction text using List.reverseRecOn with
  | nil => simp [CommentOpen, lastLine] at hopen
  | append_singleton text c ih =>
      by_cases hbreak : IsBreak c
      · rw [CommentOpen, lastLine_append_break hbreak] at hopen
        simp at hopen
      · have hwords : ∀ x ∈ [c], ¬ IsBreak x := by simpa using hbreak
        rw [← List.append_assoc, commentOpen_append_words hwords]
        rw [commentOpen_append_words hwords] at hopen
        exact hopen.imp_left ih

/-- Where no comment is open, last trivia are trivia. -/
theorem FinalTrivia.trivia_of_closed (hgap : FinalTrivia gap) (hclosed : ¬ CommentOpen gap) :
    Trivia gap := by
  cases hgap with
  | trivia htext => exact htext
  | @comment text words _ hwords =>
      exfalso
      apply hclosed
      have hcomment : ∀ x ∈ ';' :: words, ¬ IsBreak x :=
        List.forall_mem_cons.mpr ⟨by simp [IsBreak], hwords⟩
      rw [commentOpen_append_words hcomment]
      exact .inr List.mem_cons_self

/-- What spells a text is told by what is left of it behind its first trivia. -/
theorem spells_iff (position : Position) : Spells tokens text ↔
    (tokens = [] ∧ (skipTrivia false position text).2 = []) ∨
    ∃ token more after, tokens = token :: more ∧
      (skipTrivia false position text).2 = token.chars ++ after ∧ EndsBefore after token ∧
      Spells more after := by
  constructor
  · intro hspells
    cases hspells with
    | nil hgap => exact .inl ⟨rfl, hgap.skipTrivia_eq_nil position⟩
    | @cons gap token after more hgap hends hafter =>
        obtain ⟨first, tail, hchars, hstarts, _⟩ := exists_read? hends
        refine .inr ⟨token, more, after, rfl, ?_, hends, hafter⟩
        rw [List.append_assoc, hgap.skipTrivia_append position position, hchars,
          skipTrivia_of_startsToken hstarts]
  · intro hskip
    have hskips := skips_skipTrivia false position text
    rcases hskip with ⟨rfl, hnil⟩ | ⟨token, more, after, rfl, hchars, hends, hafter⟩
    · rw [hnil] at hskips
      rcases hskips with ⟨_, hfinal⟩ | ⟨_, _, _, hrest, _⟩
      · exact .nil hfinal
      · cases hrest
    · rw [hchars] at hskips
      rcases hskips with ⟨hrest, _⟩ | ⟨gap, _, _, _, rfl, htrivia, _⟩
      · obtain ⟨first, tail, hfirst, _⟩ := exists_read? hends
        rw [hfirst] at hrest
        cases hrest
      · rw [← List.append_assoc]
        exact .cons htrivia hends hafter

theorem Trivia.spells_append_iff (hgap : Trivia gap) :
    Spells tokens (gap ++ text) ↔ Spells tokens text := by
  rw [spells_iff .start, spells_iff .start, hgap.skipTrivia_append .start .start]

/-- A text that does not begin with trivia begins with a token. -/
theorem Spells.of_startsToken (hspells : Spells tokens (c :: text)) (hstarts : StartsToken c) :
    ∃ token more after, tokens = token :: more ∧ c :: text = token.chars ++ after ∧
      EndsBefore after token ∧ Spells more after := by
  rw [spells_iff .start, skipTrivia_of_startsToken hstarts] at hspells
  rcases hspells with ⟨_, hnil⟩ | hcons
  · cases hnil
  · exact hcons

/-! ### What a text begins with -/

/-- The characters that trivia can begin with. -/
def triviaCharacters : List Char := [' ', '\t', '\n', '\r', ';']

theorem read?_eq_none_iff {c : Char} : Token.read? c text = none ↔ c ∉ tokenCharacters := by
  unfold Token.read? tokenCharacters
  split <;> simp_all

theorem startsToken_iff {c : Char} : StartsToken c ↔ c ∉ triviaCharacters := by
  simp only [StartsToken, IsBreak, triviaCharacters, List.mem_cons, List.not_mem_nil, or_false,
    not_or]
  tauto

/-- What a token can become when text is added behind it. -/
inductive Lengthens : Token → Token → Prop where
  | same (token : Token) : Lengthens token token
  | dots {index index'} (hle : index ≤ index') : Lengthens (.dots index) (.dots index')
  | colons {extra extra'} (hle : extra ≤ extra') : Lengthens (.colons extra) (.colons extra')

theorem le_length_run (n : Nat) (c : Char) (text : List Char) :
    n ≤ ((List.replicate n c ++ text).takeWhile (· == c)).length := by
  rw [List.takeWhile_append_of_pos (by simp), List.length_append, List.length_replicate]
  exact Nat.le_add_right _ _

theorem Lengthens.of_chars {token' : Token} (hends : EndsBefore rest token')
    (hsame : token.chars ++ text = token'.chars ++ rest) : Lengthens token token' := by
  obtain ⟨first, tail, hchars, _, hread⟩ := exists_read? hends
  rw [← hsame] at hchars
  cases token with
  | dots index =>
      obtain ⟨rfl, rfl⟩ : '.' = first ∧ List.replicate index '.' ++ text = tail := by
        simpa [Token.chars, List.replicate_succ] using hchars
      cases hread
      exact .dots (le_length_run _ _ _)
  | colons extra =>
      obtain ⟨rfl, rfl⟩ : ':' = first ∧ List.replicate extra ':' ++ text = tail := by
        simpa [Token.chars, List.replicate_succ] using hchars
      cases hread
      exact .colons (le_length_run _ _ _)
  | _ =>
      cases hchars
      cases hread
      exact .same _

theorem exists_chars_cons (token : Token) :
    ∃ c tail, token.chars = c :: tail ∧ c ∈ tokenCharacters := by
  obtain ⟨c, tail, hchars⟩ := List.exists_cons_of_ne_nil (chars_ne_nil token)
  refine ⟨c, tail, hchars, ?_⟩
  apply mem_tokenCharacters
  rw [hchars]
  exact List.mem_cons_self

theorem head_mem_tokenCharacters (hsame : token.chars ++ rest = c :: text) :
    c ∈ tokenCharacters := by
  obtain ⟨first, tail, hchars, hfirst⟩ := exists_chars_cons token
  rw [hchars, List.cons_append] at hsame
  obtain ⟨rfl, _⟩ := List.cons.inj hsame
  exact hfirst

/-- A text that begins with a token is spelled by this or by a longer run, and others. -/
theorem Spells.exists_lengthens {tokens' : List Token}
    (hspells : Spells tokens' (token.chars ++ text)) :
    ∃ token' more, tokens' = token' :: more ∧ Lengthens token token' := by
  obtain ⟨first, tail, hchars, hfirst⟩ := exists_chars_cons token
  rw [hchars, List.cons_append] at hspells
  obtain ⟨token', more, after, rfl, hsame, hends, _⟩ :=
    hspells.of_startsToken (startsToken_of_mem hfirst)
  rw [← List.cons_append, ← hchars] at hsame
  exact ⟨token', more, rfl, .of_chars hends hsame⟩

/-- The token or the single character that a text begins with: a run as a whole. -/
def offending : List Char → List Char
  | [] => []
  | c :: text => if c = '.' ∨ c = ':' then c :: text.takeWhile (· == c) else [c]

theorem takeWhile_run {c : Char} (n : Nat) (hends : text.head? ≠ some c) :
    (List.replicate n c ++ text).takeWhile (· == c) = List.replicate n c := by
  have hnone : text.takeWhile (· == c) = [] := by
    cases text with
    | nil => rfl
    | cons x text => simpa using hends
  rw [List.takeWhile_append_of_pos (by simp), hnone, List.append_nil]

theorem offending_chars (hends : EndsBefore rest token) :
    offending (token.chars ++ rest) = token.chars := by
  cases token with
  | dots index =>
      have hrun := takeWhile_run index (show rest.head? ≠ some '.' from hends)
      simp [offending, Token.chars, List.replicate_succ, hrun]
  | colons extra =>
      have hrun := takeWhile_run extra (show rest.head? ≠ some ':' from hends)
      simp [offending, Token.chars, List.replicate_succ, hrun]
  | _ => rfl

theorem exists_offending_cons (c : Char) (text : List Char) :
    ∃ tail, offending (c :: text) = c :: tail := by
  rw [offending]
  split
  · exact ⟨_, rfl⟩
  · exact ⟨_, rfl⟩

theorem exists_eq_offending_append (text : List Char) :
    ∃ after, text = offending text ++ after := by
  cases text with
  | nil => exact ⟨[], rfl⟩
  | cons c text =>
      rw [offending]
      split
      · exact ⟨text.dropWhile (· == c), by simp⟩
      · exact ⟨text, rfl⟩

theorem offending_strange {c : Char} (htoken : c ∉ tokenCharacters) :
    offending (c :: text) = [c] := by
  rw [offending, if_neg]
  rintro (rfl | rfl) <;> simp [tokenCharacters] at htoken

/-! ### Cutting and joining -/

/-- A text that is cut neither within a run nor within a comment is spelled in two parts. -/
theorem Spells.exists_append {tokens' : List Token} (hbefore : Spells tokens before)
    (hclosed : ¬ CommentOpen before) (hrun : Unbroken before rest)
    (hspells : Spells tokens' (before ++ rest)) :
    ∃ more, tokens' = tokens ++ more ∧ Spells more rest := by
  induction hbefore generalizing tokens' with
  | nil hgap =>
      have htrivia := hgap.trivia_of_closed hclosed
      exact ⟨tokens', rfl, htrivia.spells_append_iff.mp hspells⟩
  | @cons gap token text tokens hgap hends _ ih =>
      have hends' : EndsBefore (text ++ rest) token := by
        apply hends.append
        rintro rfl
        rw [List.append_nil] at hrun
        exact .of_unbroken hrun
      rw [List.append_assoc, List.append_assoc, hgap.spells_append_iff] at hspells
      obtain ⟨first, tail, hchars, hstarts, _⟩ := exists_read? hends'
      rw [hchars] at hspells
      obtain ⟨token', more, after, rfl, hsame, hafter, hmore⟩ := hspells.of_startsToken hstarts
      rw [← hchars] at hsame
      obtain ⟨rfl, rfl⟩ := chars_append_inj hends' hafter hsame
      obtain ⟨more, rfl, hrest⟩ := ih (fun hopen => hclosed hopen.append) hrun.of_append hmore
      exact ⟨more, rfl, hrest⟩

/-- A line break joins two texts. -/
theorem Spells.append_line (hbefore : Spells tokens before) (htext : Spells more text) :
    Spells (tokens ++ more) (before ++ '\n' :: text) := by
  induction hbefore with
  | nil hgap =>
      rw [List.append_cons]
      exact hgap.append_line.spells_append_iff.mpr htext
  | @cons gap token after tokens hgap hends _ ih =>
      have hends' : EndsBefore (after ++ '\n' :: text) token := by
        apply hends.append
        rintro -
        cases token <;> simp [EndsBefore]
      rw [List.append_assoc, List.cons_append]
      exact .cons hgap hends' ih

/-- All tokens spell some text. -/
theorem exists_spells (tokens : List Token) : ∃ text, Spells tokens text := by
  induction tokens with
  | nil => exact ⟨[], .nil (.trivia .nil)⟩
  | cons token tokens ih =>
      obtain ⟨text, htext⟩ := ih
      have hends : EndsBefore [] token := by cases token <;> simp [EndsBefore]
      have hsingle : Spells [token] ([] ++ token.chars ++ []) :=
        .cons .nil hends (.nil (.trivia .nil))
      exact ⟨_, hsingle.append_line htext⟩

/-! ### Tokens before a term -/

/-- Under `depth` abstractions, a term can begin with these tokens, and the next thing in it is a
term again, which is under `inner` abstractions. So many parts of it are begun and not finished,
one for each token of an abstraction or an application around that place. -/
inductive Awaits : Nat → List Token → Nat → Nat → Prop where
  | here {depth} : Awaits depth [] depth 0
  | lam {depth tokens inner waiting} (hbody : Awaits (depth + 1) tokens inner waiting) :
      Awaits depth (.lam :: tokens) inner (waiting + 1)
  | function {depth tokens inner waiting} (hfunction : Awaits depth tokens inner waiting) :
      Awaits depth (.app :: tokens) inner (waiting + 1)
  | argument {depth tokens tokens' function inner waiting}
      (hfunction : Derives depth tokens function)
      (hargument : Awaits depth tokens' inner waiting) :
      Awaits depth (.app :: (tokens ++ tokens')) inner (waiting + 1)

namespace Awaits

variable {depth inner waiting : Nat} {tokens' : List Token} {term : Term Atom}

/-- The awaited term can begin with tokens that await one. -/
theorem trans {innermost waiting' : Nat} (hawaits : Awaits depth tokens inner waiting)
    (hinner : Awaits inner tokens' innermost waiting') :
    Awaits depth (tokens ++ tokens') innermost (waiting + waiting') := by
  induction hawaits with
  | here =>
      rw [Nat.zero_add]
      exact hinner
  | lam _ ih =>
      rw [Nat.add_right_comm]
      exact .lam (ih hinner)
  | function _ ih =>
      rw [Nat.add_right_comm]
      exact .function (ih hinner)
  | argument hfunction _ ih =>
      rw [Nat.add_right_comm, List.cons_append, List.append_assoc]
      exact .argument hfunction (ih hinner)

/-- Whatever term is put there, the tokens can be completed. -/
theorem exists_derives (hawaits : Awaits depth tokens inner waiting)
    (hterm : Derives inner tokens' term) :
    ∃ more whole, Derives depth (tokens ++ (tokens' ++ more)) whole := by
  induction hawaits with
  | here => exact ⟨[], term, by simpa using hterm⟩
  | lam _ ih =>
      obtain ⟨more, body, hbody⟩ := ih hterm
      exact ⟨more, .lam body, .lam hbody⟩
  | function _ ih =>
      obtain ⟨more, function, hfunction⟩ := ih hterm
      refine ⟨more ++ [.unit], .app function (.leaf .unit), ?_⟩
      have happ := Derives.app hfunction .unit
      simpa only [List.cons_append, List.append_assoc] using happ
  | @argument _ _ _ function _ _ hfunction _ ih =>
      obtain ⟨more, argument, hargument⟩ := ih hterm
      have happ := Derives.app hfunction hargument
      refine ⟨more, .app function argument, ?_⟩
      simpa only [List.cons_append, List.append_assoc] using happ

/-- What completes the tokens begins with a term. -/
theorem exists_first (hawaits : Awaits depth tokens inner waiting) {first : List Token}
    (hwhole : Derives depth first term) (hsame : first ++ tokens' = tokens ++ more) :
    ∃ part last awaited, more = part ++ last ∧ Derives inner part awaited := by
  induction hawaits generalizing first tokens' term with
  | here => exact ⟨first, tokens', term, hsame.symm, hwhole⟩
  | lam _ ih =>
      cases hwhole with
      | lam hbody =>
          simp only [List.cons_append, List.cons.injEq, true_and] at hsame
          exact ih hbody hsame
      | _ => simp at hsame
  | function _ ih =>
      cases hwhole with
      | app hfunction hargument =>
          simp only [List.cons_append, List.cons.injEq, true_and, List.append_assoc] at hsame
          exact ih hfunction hsame
      | _ => simp at hsame
  | argument hgiven _ ih =>
      cases hwhole with
      | app hfunction hargument =>
          simp only [List.cons_append, List.cons.injEq, true_and, List.append_assoc] at hsame
          obtain ⟨_, hrest⟩ := hfunction.det hgiven hsame
          exact ih hargument hrest
      | _ => simp at hsame

/-- Tokens that await a term are not those of a whole one. -/
theorem not_derives (hawaits : Awaits depth tokens inner waiting) :
    ¬ Derives depth tokens term := by
  intro hwhole
  have hsame : tokens ++ [] = tokens ++ [] := rfl
  obtain ⟨part, last, awaited, hnil, hpart⟩ := hawaits.exists_first hwhole hsame
  obtain rfl : part = [] := (List.append_eq_nil_iff.mp hnil.symm).1
  cases hpart

end Awaits

theorem Derives.of_dots {depth index : Nat} {term : Term Atom}
    (hderives : Derives depth (.dots index :: tokens) term) :
    index < depth := by
  cases hderives with
  | var hbound => exact hbound

theorem Derives.of_colons {depth extra : Nat} {term : Term Atom}
    (hderives : Derives depth (.colons extra :: tokens) term) :
    extra < 3 := by
  cases hderives <;> omega

/-- A term begins with a token. -/
theorem Awaits.exists_derives_cons {depth waiting : Nat} {term : Term Atom}
    (hawaits : Awaits 0 tokens depth waiting)
    (hwhole : Derives 0 (tokens ++ token :: more) term) :
    ∃ part awaited, Derives depth (token :: part) awaited := by
  have hsame : tokens ++ token :: more ++ [] = tokens ++ (token :: more) := List.append_nil _
  obtain ⟨part, last, awaited, hpart, hderives⟩ := hawaits.exists_first hwhole hsame
  cases part with
  | nil => cases hderives
  | cons token' part =>
      obtain ⟨rfl, _⟩ := List.cons.inj hpart
      exact ⟨part, awaited, hderives⟩

/-- A program can begin with these tokens: with the given number of parts begun and not finished,
or as a whole. -/
inductive Viable : List Token → Nat → Prop where
  | awaits {tokens depth waiting} (hawaits : Awaits 0 tokens depth waiting) :
      Viable tokens waiting
  | whole {tokens term} (hwhole : Derives 0 tokens term) : Viable tokens 0

theorem Viable.exists_derives {waiting : Nat} (hviable : Viable tokens waiting) :
    ∃ more whole, Derives 0 (tokens ++ more) whole := by
  cases hviable with
  | awaits hawaits =>
      obtain ⟨more, whole, hwhole⟩ := hawaits.exists_derives .unit
      exact ⟨[.unit] ++ more, whole, hwhole⟩
  | @whole term hwhole =>
      refine ⟨[], term, ?_⟩
      rw [List.append_nil]
      exact hwhole

end LambdaMachine.Source
