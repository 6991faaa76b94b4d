import LambdaMachine.Source.Grammar

/-!
# Scanning is spelling

The tokens that a scan finds spell the text if the scan comes to its end, and the tokens
that spell a text are found in it. Positions play no part in this, nor does it matter
whether a return and a feed are taken as one line break or as two.
-/

namespace LambdaMachine.Source

/-! ### Trivia -/

theorem trivia_comment {text : List Char} (htrivia : Trivia (';' :: text)) :
    ∃ words c rest, text = words ++ c :: rest ∧ (∀ x ∈ words, ¬ IsBreak x) ∧ IsBreak c ∧
      Trivia rest := by
  cases htrivia with
  | blank hblank => simp at hblank
  | lineBreak hbreak => simp [IsBreak] at hbreak
  | comment hwords hbreak htext => exact ⟨_, _, _, rfl, hwords, hbreak, htext⟩

/-- A comment may begin with one more character. -/
theorem Trivia.comment_cons {x : Char} {text : List Char} (hx : ¬ IsBreak x)
    (htrivia : Trivia (';' :: text)) : Trivia (';' :: x :: text) := by
  obtain ⟨words, c, rest, rfl, hwords, hbreak, htext⟩ := trivia_comment htrivia
  exact .comment (List.forall_mem_cons.mpr ⟨hx, hwords⟩) hbreak htext

theorem FinalTrivia.cons_blank {c : Char} {text : List Char} (hblank : c = ' ' ∨ c = '\t')
    (hfinal : FinalTrivia text) : FinalTrivia (c :: text) := by
  cases hfinal with
  | trivia htext => exact .trivia (.blank hblank htext)
  | comment htext hwords => exact .comment (.blank hblank htext) hwords

theorem FinalTrivia.cons_break {c : Char} {text : List Char} (hbreak : IsBreak c)
    (hfinal : FinalTrivia text) : FinalTrivia (c :: text) := by
  cases hfinal with
  | trivia htext => exact .trivia (.lineBreak hbreak htext)
  | comment htext hwords => exact .comment (.lineBreak hbreak htext) hwords

/-- A comment is ended by a line break. -/
theorem FinalTrivia.comment_break {c : Char} {text : List Char} (hbreak : IsBreak c)
    (hfinal : FinalTrivia text) : FinalTrivia (';' :: c :: text) := by
  have hbegin : ∀ {text}, Trivia text → Trivia (';' :: c :: text) := fun {text} htext =>
    Trivia.comment (List.forall_mem_nil _) hbreak htext
  cases hfinal with
  | trivia htext => exact .trivia (hbegin htext)
  | comment htext hwords => exact .comment (hbegin htext) hwords

theorem FinalTrivia.comment_cons {x : Char} {text : List Char} (hx : ¬ IsBreak x)
    (hfinal : FinalTrivia (';' :: text)) : FinalTrivia (';' :: x :: text) := by
  generalize htext : ';' :: text = whole at hfinal
  cases hfinal with
  | trivia htrivia =>
      subst htext
      exact .trivia (htrivia.comment_cons hx)
  | @comment before words htrivia hwords =>
      cases before with
      | nil =>
          obtain rfl : text = words := by simpa using htext
          exact .comment .nil (List.forall_mem_cons.mpr ⟨hx, hwords⟩)
      | cons c before =>
          obtain ⟨rfl, rfl⟩ : ';' = c ∧ text = before ++ ';' :: words := by simpa using htext
          exact .comment (htrivia.comment_cons hx) hwords

/-! ### Skipping -/

/-- The semicolon of a comment that is being skipped. -/
def opened (comment : Bool) : List Char :=
  if comment then [';'] else []

/-- A character that starts neither trivia nor goes on with them. -/
def StartsToken (c : Char) : Prop :=
  ¬ IsBreak c ∧ c ≠ ' ' ∧ c ≠ '\t' ∧ c ≠ ';'

/-- What stands in front of the rest is trivia, and the rest begins with a token if there
is any. -/
def Skips (comment : Bool) (text rest : List Char) : Prop :=
  (rest = [] ∧ FinalTrivia (opened comment ++ text)) ∨
    ∃ gap first tail, rest = first :: tail ∧ text = gap ++ rest ∧
      Trivia (opened comment ++ gap) ∧ StartsToken first

namespace Skips

variable {c : Char} {text rest : List Char}

theorem cons_break {comment : Bool} (hbreak : IsBreak c) (h : Skips false text rest) :
    Skips comment (c :: text) rest := by
  rcases h with ⟨hrest, hfinal⟩ | ⟨gap, first, tail, hrest, rfl, htrivia, hstarts⟩
  · refine .inl ⟨hrest, ?_⟩
    cases comment with
    | false => exact hfinal.cons_break hbreak
    | true => exact hfinal.comment_break hbreak
  · refine .inr ⟨c :: gap, first, tail, hrest, rfl, ?_, hstarts⟩
    cases comment with
    | false => exact .lineBreak hbreak htrivia
    | true => exact Trivia.comment (List.forall_mem_nil _) hbreak htrivia

theorem cons_blank (hblank : c = ' ' ∨ c = '\t') (h : Skips false text rest) :
    Skips false (c :: text) rest := by
  rcases h with ⟨hrest, hfinal⟩ | ⟨gap, first, tail, hrest, rfl, htrivia, hstarts⟩
  · exact .inl ⟨hrest, hfinal.cons_blank hblank⟩
  · exact .inr ⟨c :: gap, first, tail, hrest, rfl, .blank hblank htrivia, hstarts⟩

theorem cons_comment (hc : ¬ IsBreak c) (h : Skips true text rest) :
    Skips true (c :: text) rest := by
  rcases h with ⟨hrest, hfinal⟩ | ⟨gap, first, tail, hrest, rfl, htrivia, hstarts⟩
  · exact .inl ⟨hrest, hfinal.comment_cons hc⟩
  · exact .inr ⟨c :: gap, first, tail, hrest, rfl, htrivia.comment_cons hc, hstarts⟩

theorem cons_semicolon (h : Skips true text rest) : Skips false (';' :: text) rest := by
  rcases h with ⟨hrest, hfinal⟩ | ⟨gap, first, tail, hrest, rfl, htrivia, hstarts⟩
  · exact .inl ⟨hrest, hfinal⟩
  · exact .inr ⟨';' :: gap, first, tail, hrest, rfl, htrivia, hstarts⟩

end Skips

/-- What is skipped is trivia, up to a character that is none. -/
theorem skips_skipTrivia (comment : Bool) (position : Position) (text : List Char) :
    Skips comment text (skipTrivia comment position text).2 := by
  fun_induction skipTrivia comment position text with
  | case1 comment position =>
      refine .inl ⟨rfl, ?_⟩
      cases comment with
      | false => exact .trivia .nil
      | true => exact .comment .nil (List.forall_mem_nil _)
  | case2 comment position text ih => exact .cons_break (.inr rfl) (.cons_break (.inl rfl) ih)
  | case3 comment position text _ ih => exact .cons_break (.inr rfl) ih
  | case4 comment position text ih => exact .cons_break (.inl rfl) ih
  | case5 position first text hcrlf hcr hlf ih =>
      refine .cons_comment ?_ ih
      rintro (rfl | rfl)
      · exact hlf rfl
      · exact hcr rfl
  | case6 comment position first text hcrlf hcr hlf hcomment hblank ih =>
      obtain rfl : comment = false := by simpa using hcomment
      exact .cons_blank hblank ih
  | case7 comment position text hcomment hcrlf hcr hlf hblank ih =>
      obtain rfl : comment = false := by simpa using hcomment
      exact .cons_semicolon ih
  | case8 comment position first text hcrlf hcr hlf hcomment hblank hsemicolon =>
      obtain rfl : comment = false := by simpa using hcomment
      refine .inr ⟨[], first, text, rfl, rfl, .nil, ?_, ?_, ?_, hsemicolon⟩
      · rintro (rfl | rfl)
        · exact hlf rfl
        · exact hcr rfl
      · exact fun heq => hblank (.inl heq)
      · exact fun heq => hblank (.inr heq)

/-! ### Skipping trivia -/

/-- The position does not matter for what is skipped. -/
theorem skipTrivia_position (comment : Bool) (position position' : Position) (text : List Char) :
    (skipTrivia comment position text).2 = (skipTrivia comment position' text).2 := by
  fun_induction skipTrivia comment position text generalizing position' with
  | case1 => simp [skipTrivia]
  | case2 comment position text ih => simpa [skipTrivia] using ih _
  | case3 comment position text hlf ih => simpa [skipTrivia] using ih _
  | case4 comment position text ih => simpa [skipTrivia] using ih _
  | case5 position first text hcrlf hcr hlf ih => simpa [skipTrivia] using ih _
  | case6 comment position first text hcrlf hcr hlf hcomment hblank ih =>
      simpa [skipTrivia, hcomment, hblank] using ih _
  | case7 comment position text hcomment hcrlf hcr hlf hblank ih =>
      simpa [skipTrivia, hcomment, hblank] using ih _
  | case8 comment position first text hcrlf hcr hlf hcomment hblank hsemicolon =>
      simp [skipTrivia, hcomment, hblank, hsemicolon]

theorem skipTrivia_break {comment : Bool} {position : Position} (position' : Position) {c : Char}
    {text : List Char} (hbreak : IsBreak c) :
    (skipTrivia comment position (c :: text)).2 = (skipTrivia false position' text).2 := by
  rcases hbreak with rfl | rfl
  · rw [skipTrivia]
    exact skipTrivia_position _ _ _ _
  · cases text with
    | nil => simp [skipTrivia]
    | cons x text =>
        by_cases hx : x = '\n'
        · subst hx
          rw [skipTrivia, skipTrivia]
          exact skipTrivia_position _ _ _ _
        · rw [skipTrivia]
          · exact skipTrivia_position _ _ _ _
          · simpa using hx

theorem skipTrivia_words {position : Position} (position' : Position) {words text : List Char}
    (hwords : ∀ x ∈ words, ¬ IsBreak x) :
    (skipTrivia true position (words ++ text)).2 = (skipTrivia true position' text).2 := by
  induction words generalizing position with
  | nil => exact skipTrivia_position _ _ _ _
  | cons x words ih =>
      obtain ⟨hx, hwords⟩ := List.forall_mem_cons.mp hwords
      rw [IsBreak, not_or] at hx
      rw [List.cons_append, skipTrivia]
      · exact ih hwords
      all_goals simp_all

theorem skipTrivia_blank {position : Position} (position' : Position) {c : Char} {text : List Char}
    (hblank : c = ' ' ∨ c = '\t') :
    (skipTrivia false position (c :: text)).2 = (skipTrivia false position' text).2 := by
  rcases hblank with rfl | rfl
  all_goals
    rw [skipTrivia]
    · exact skipTrivia_position _ _ _ _
    all_goals simp

theorem skipTrivia_semicolon {position : Position} (position' : Position) {text : List Char} :
    (skipTrivia false position (';' :: text)).2 = (skipTrivia true position' text).2 := by
  rw [skipTrivia]
  · exact skipTrivia_position _ _ _ _
  all_goals simp

theorem skipTrivia_of_startsToken {c : Char} (hstarts : StartsToken c) (position : Position)
    (text : List Char) : skipTrivia false position (c :: text) = (position, c :: text) := by
  obtain ⟨hbreak, hspace, htab, hsemicolon⟩ := hstarts
  rw [IsBreak, not_or] at hbreak
  rw [skipTrivia]
  · simp [hspace, htab, hsemicolon]
  all_goals simp_all

theorem Trivia.skipTrivia_append {gap : List Char} (hgap : Trivia gap)
    (position position' : Position)
    (text : List Char) :
    (skipTrivia false position (gap ++ text)).2 = (skipTrivia false position' text).2 := by
  induction hgap generalizing position with
  | nil => exact skipTrivia_position _ _ _ _
  | blank hblank _ ih => rw [List.cons_append, skipTrivia_blank position hblank, ih]
  | lineBreak hbreak _ ih => rw [List.cons_append, skipTrivia_break position hbreak, ih]
  | comment hwords hbreak _ ih =>
      rw [List.cons_append, List.append_assoc, List.cons_append, skipTrivia_semicolon position,
        skipTrivia_words position hwords, skipTrivia_break position hbreak, ih]

theorem FinalTrivia.skipTrivia_eq_nil {gap : List Char} (hgap : FinalTrivia gap)
    (position : Position) : (skipTrivia false position gap).2 = [] := by
  cases hgap with
  | trivia htext =>
      have hskip := htext.skipTrivia_append position position []
      rw [List.append_nil] at hskip
      rw [hskip]
      simp [skipTrivia]
  | @comment _ words htext hwords =>
      rw [htext.skipTrivia_append position position, skipTrivia_semicolon position]
      have hskip : (skipTrivia true position (words ++ [])).2 = (skipTrivia true position []).2 :=
        skipTrivia_words position hwords
      rw [List.append_nil] at hskip
      rw [hskip]
      simp [skipTrivia]

/-! ### Tokens -/

theorem head?_dropWhile_ne (c : Char) (text : List Char) :
    (text.dropWhile (· == c)).head? ≠ some c := by
  intro hhead
  have hnot := List.head?_dropWhile_not (· == c) text
  simp [hhead] at hnot

/-- A token that was cut off does not go on in the text behind it. -/
theorem endsBefore_of_read? {first : Char} {text rest : List Char} {token : Token}
    (hread : Token.read? first text = some (token, rest)) : EndsBefore rest token := by
  unfold Token.read? at hread
  split at hread <;> simp only [Option.some.injEq, Prod.mk.injEq, reduceCtorEq] at hread <;>
    obtain ⟨rfl, rfl⟩ := hread
  · trivial
  · trivial
  · trivial
  · exact head?_dropWhile_ne '.' text
  · exact head?_dropWhile_ne ':' text

theorem run_read {c : Char} {text : List Char} (n : Nat) (hends : text.head? ≠ some c) :
    ((List.replicate n c ++ text).takeWhile (· == c)).length = n ∧
      (List.replicate n c ++ text).dropWhile (· == c) = text := by
  induction n with
  | zero =>
      cases text with
      | nil => exact ⟨rfl, rfl⟩
      | cons x text =>
          have hx : (x == c) = false := by simpa using hends
          simp [hx]
  | succ n ih =>
      simp only [List.replicate_succ, List.cons_append, List.takeWhile_cons, List.dropWhile_cons,
        beq_self_eq_true, if_true, List.length_cons, ih, and_self]

/-- A token is cut off from a text in which it does not go on. -/
theorem exists_read? {token : Token} {text : List Char} (hends : EndsBefore text token) :
    ∃ first tail, token.chars ++ text = first :: tail ∧ StartsToken first ∧
      Token.read? first tail = some (token, text) := by
  have hstarts : ∀ c ∈ ['\'', ',', '"', '.', ':'], StartsToken c := by
    simp [StartsToken, IsBreak]
  cases token with
  | lam => exact ⟨'\'', text, rfl, hstarts _ (by simp), rfl⟩
  | app => exact ⟨',', text, rfl, hstarts _ (by simp), rfl⟩
  | unit => exact ⟨'"', text, rfl, hstarts _ (by simp), rfl⟩
  | dots index =>
      obtain ⟨hlength, hrest⟩ := run_read index (show text.head? ≠ some '.' from hends)
      exact ⟨'.', List.replicate index '.' ++ text, rfl, hstarts _ (by simp),
        by simp only [Token.read?, hlength, hrest]⟩
  | colons extra =>
      obtain ⟨hlength, hrest⟩ := run_read extra (show text.head? ≠ some ':' from hends)
      exact ⟨':', List.replicate extra ':' ++ text, rfl, hstarts _ (by simp),
        by simp only [Token.read?, hlength, hrest]⟩

/-! ### The scan -/

/-- The tokens behind those already found spell the text, if the scan comes to its end. -/
theorem scanFrom_spells (position : Position) (text : List Char) (found : List (Position × Token)) :
    ∃ tokens, (scanFrom position text found).tokens = found.reverse ++ tokens ∧
      ((scanFrom position text found).ending = .endOfText →
        Spells (tokens.map Prod.snd) text) := by
  fun_induction scanFrom position text found with
  | case1 position text found start hskip =>
      refine ⟨[], (List.append_nil _).symm, fun _ => .nil ?_⟩
      rcases skips_skipTrivia false position text with ⟨_, hfinal⟩ | ⟨_, _, _, hrest, _⟩
      · exact hfinal
      · rw [hskip] at hrest
        cases hrest
  | case2 => exact ⟨[], (List.append_nil _).symm, fun hending => nomatch hending⟩
  | case3 position text found start first tail hskip token rest hread ih =>
      obtain ⟨tokens, htokens, hspells⟩ := ih
      refine ⟨(start, token) :: tokens, by rw [htokens, List.reverse_cons, List.append_assoc]; rfl,
        fun hending => ?_⟩
      rcases skips_skipTrivia false position text with ⟨hrest, _⟩ | ⟨gap, _, _, _, htext, hgap, _⟩
      · rw [hskip] at hrest
        cases hrest
      · rw [hskip, ← Token.chars_append_of_read? hread, ← List.append_assoc] at htext
        rw [htext]
        exact .cons hgap (endsBefore_of_read? hread) (hspells hending)

theorem scanFrom_of_nil {position : Position} {text : List Char}
    (hskip : (skipTrivia false position text).2 = []) (found : List (Position × Token)) :
    (scanFrom position text found).ending = .endOfText ∧
      (scanFrom position text found).tokens = found.reverse := by
  unfold scanFrom
  split
  next => exact ⟨rfl, rfl⟩
  next start first tail heq =>
      rw [heq] at hskip
      cases hskip

theorem scanFrom_of_cons {position : Position} {text tail rest : List Char} {first : Char}
    {token : Token} (hskip : (skipTrivia false position text).2 = first :: tail)
    (hread : Token.read? first tail = some (token, rest)) (found : List (Position × Token)) :
    ∃ start : Position, scanFrom position text found =
      scanFrom (start.advance token.length) rest ((start, token) :: found) := by
  rw [scanFrom]
  split
  next start heq =>
      rw [heq] at hskip
      cases hskip
  next start first' tail' heq =>
      rw [heq] at hskip
      cases hskip
      split
      next hnone =>
          rw [hread] at hnone
          cases hnone
      next token' rest' hsome =>
          rw [hread] at hsome
          cases hsome
          exact ⟨start, rfl⟩

/-- The tokens that spell a text are found in it. -/
theorem Spells.scanFrom_eq {tokens : List Token} {text : List Char} (hspells : Spells tokens text)
    (position : Position) (found : List (Position × Token)) :
    (scanFrom position text found).ending = .endOfText ∧
      (scanFrom position text found).tokens.map Prod.snd =
        found.reverse.map Prod.snd ++ tokens := by
  induction hspells generalizing position found with
  | nil hgap =>
      obtain ⟨hending, htokens⟩ := scanFrom_of_nil (hgap.skipTrivia_eq_nil position) found
      exact ⟨hending, by rw [htokens, List.append_nil]⟩
  | @cons gap token text tokens hgap hends _ ih =>
      obtain ⟨first, tail, hchars, hstarts, hread⟩ := exists_read? hends
      have hskip : (skipTrivia false position (gap ++ token.chars ++ text)).2 = first :: tail := by
        rw [List.append_assoc, hgap.skipTrivia_append position position, hchars,
          skipTrivia_of_startsToken hstarts]
      obtain ⟨start, hscan⟩ := scanFrom_of_cons hskip hread found
      obtain ⟨hending, htokens⟩ := ih (start.advance token.length) ((start, token) :: found)
      rw [hscan]
      refine ⟨hending, htokens.trans ?_⟩
      simp

/-- A scan comes to its end exactly if some tokens spell the text, and then finds them. -/
theorem scan_spells_iff (text : List Char) (tokens : List Token) :
    (scan text).ending = .endOfText ∧ (scan text).tokens.map Prod.snd = tokens ↔
      Spells tokens text := by
  constructor
  · rintro ⟨hending, rfl⟩
    obtain ⟨tokens, htokens, hspells⟩ := scanFrom_spells .start text []
    rw [show (scan text).tokens = tokens from htokens]
    exact hspells hending
  · intro hspells
    exact hspells.scanFrom_eq .start []

end LambdaMachine.Source
