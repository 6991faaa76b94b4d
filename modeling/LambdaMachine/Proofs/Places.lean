import LambdaMachine.Proofs.Scanning
import LambdaMachine.Source.Parser
import Mathlib.Data.List.DropRight
import Mathlib.Data.String.Basic

/-!
# Places in a text

The offset, the line and the column of a position say the same: how much text stands before
it. The three are moved by different rules while trivia are skipped, and here they are tied to
one text. Its line breaks are counted from left to right, and its last line is what stands
behind the last of them.

A syntax error always stands between two characters, never within a line break, a comment or
a run (`parse_error_place`). The one place at which line and column do not belong to the text
before it is the end of a text whose last comment has no line break: it counts as the start of
another line.
-/

namespace LambdaMachine.Source

open String (utf8Len)

instance : DecidablePred IsBreak := fun _ => inferInstanceAs (Decidable (_ ∨ _))

/-! ### Lines -/

/-- The number of line breaks of a text. A return and the feed behind it are one. -/
def lineBreaks : List Char → Nat
  | [] => 0
  | '\r' :: '\n' :: text => lineBreaks text + 1
  | c :: text => if IsBreak c then lineBreaks text + 1 else lineBreaks text

/-- What stands behind the last line break of a text. -/
def lastLine (text : List Char) : List Char :=
  text.rtakeWhile fun c => !decide (IsBreak c)

/-- A comment is still open behind a text. A semicolon that is not in a comment begins one, so
this is to say that there is one in the last line. -/
def CommentOpen (text : List Char) : Prop := ';' ∈ lastLine text

instance (text : List Char) : Decidable (CommentOpen text) :=
  inferInstanceAs (Decidable (_ ∈ _))

/-- The two parts of a text do not cut a return from its feed. -/
def Unpaired (before rest : List Char) : Prop :=
  before.getLast? = some '\r' → rest.head? ≠ some '\n'

/-- The two parts of a text do not cut a run of dots or colons. -/
def Unbroken (before rest : List Char) : Prop :=
  ∀ c, c = '.' ∨ c = ':' → before.getLast? = some c → rest.head? ≠ some c

theorem Unpaired.append_left {before words text : List Char} (hne : words ≠ [])
    (hpair : Unpaired words text) : Unpaired (before ++ words) text := by
  intro hlast
  rw [List.getLast?_append_of_ne_nil _ hne] at hlast
  exact hpair hlast

theorem Unpaired.of_append_right {before words text : List Char} (hne : words ≠ [])
    (hpair : Unpaired before (words ++ text)) : Unpaired before words := by
  intro hlast
  rw [← List.head?_append_of_ne_nil _ hne]
  exact hpair hlast

theorem Unpaired.of_cons {c : Char} {before text : List Char}
    (hpair : Unpaired (c :: before) text) : Unpaired before text := by
  intro hlast
  apply hpair
  rw [List.getLast?_cons, hlast]
  rfl

/-- A character that does not pair with the next one is counted by itself. -/
theorem lineBreaks_cons {c : Char} {text : List Char} (hpair : Unpaired [c] text) :
    lineBreaks (c :: text) = (if IsBreak c then 1 else 0) + lineBreaks text := by
  rw [lineBreaks]
  · split <;> omega
  · rintro rest rfl rfl
    exact hpair rfl rfl

/-- Line breaks add up where no return is cut from its feed. -/
theorem lineBreaks_append {before text : List Char} (hpair : Unpaired before text) :
    lineBreaks (before ++ text) = lineBreaks before + lineBreaks text := by
  have hsingle : ∀ {c : Char} {before : List Char}, Unpaired (c :: before) text →
      (∀ rest, c = '\r' → before = '\n' :: rest → False) → Unpaired [c] (before ++ text) := by
    intro c before hpair hcrlf hlast
    cases before with
    | nil => exact hpair hlast
    | cons x before =>
        intro hhead
        exact hcrlf before (by simpa using hlast) (by simpa using hhead)
  fun_induction lineBreaks before with
  | case1 => rw [List.nil_append, Nat.zero_add]
  | case2 before ih =>
      simp only [List.cons_append, lineBreaks, ih hpair.of_cons.of_cons]
      omega
  | case3 c before hcrlf hbreak ih =>
      rw [List.cons_append, lineBreaks_cons (hsingle hpair hcrlf), ih hpair.of_cons, if_pos hbreak]
      omega
  | case4 c before hcrlf hbreak ih =>
      rw [List.cons_append, lineBreaks_cons (hsingle hpair hcrlf), ih hpair.of_cons, if_neg hbreak]
      omega

example : lineBreaks ['\r', '\n', '\r', '\n', '\n', '\r'] = 4 := by decide

theorem lineBreaks_words {words : List Char} (hwords : ∀ x ∈ words, ¬ IsBreak x) :
    lineBreaks words = 0 := by
  induction words with
  | nil => rfl
  | cons x words ih =>
      obtain ⟨hx, hwords⟩ := List.forall_mem_cons.mp hwords
      rw [lineBreaks, if_neg hx, ih hwords]
      rintro _ rfl rfl
      exact hx (.inr rfl)

theorem lineBreaks_append_words {before words : List Char} (hwords : ∀ x ∈ words, ¬ IsBreak x) :
    lineBreaks (before ++ words) = lineBreaks before := by
  have hpair : Unpaired before words := by
    rintro - hhead
    exact hwords '\n' (List.mem_of_mem_head? hhead) (.inl rfl)
  rw [lineBreaks_append hpair, lineBreaks_words hwords, Nat.add_zero]

theorem Unpaired.of_words {words text : List Char} (hwords : ∀ x ∈ words, ¬ IsBreak x) :
    Unpaired words text := by
  intro hlast
  exact absurd (.inr rfl) (hwords '\r' (List.mem_of_getLast? hlast))

theorem lastLine_append_words {before words : List Char} (hwords : ∀ x ∈ words, ¬ IsBreak x) :
    lastLine (before ++ words) = lastLine before ++ words := by
  induction words using List.reverseRecOn with
  | nil => simp
  | append_singleton words x ih =>
      have hx : ¬ IsBreak x := hwords x (by simp)
      have hinit : ∀ y ∈ words, ¬ IsBreak y := fun y hy => hwords y (by simp [hy])
      rw [← List.append_assoc, lastLine, List.rtakeWhile_concat_pos _ _ _ (by simpa using hx)]
      rw [← lastLine, ih hinit, List.append_assoc]

theorem commentOpen_append_words {before words : List Char} (hwords : ∀ x ∈ words, ¬ IsBreak x) :
    CommentOpen (before ++ words) ↔ CommentOpen before ∨ ';' ∈ words := by
  rw [CommentOpen, lastLine_append_words hwords, List.mem_append, CommentOpen]

theorem lastLine_append_break {before : List Char} {c : Char} (hbreak : IsBreak c) :
    lastLine (before ++ [c]) = [] :=
  List.rtakeWhile_concat_neg _ _ _ (by simpa using hbreak)

/-! ### The characters of a token -/

/-- The characters that a token can begin with. -/
def tokenCharacters : List Char := ['\'', ',', '"', '.', ':']

theorem chars_ne_nil (token : Token) : token.chars ≠ [] := by
  apply List.ne_nil_of_length_pos
  rw [token.length_chars]
  exact token.length_pos

theorem mem_tokenCharacters {token : Token} {c : Char} (hmem : c ∈ token.chars) :
    c ∈ tokenCharacters := by
  cases token with
  | dots index => simp [tokenCharacters, List.eq_of_mem_replicate hmem]
  | colons extra => simp [tokenCharacters, List.eq_of_mem_replicate hmem]
  | _ => simp [tokenCharacters, List.mem_singleton.mp hmem]

theorem startsToken_of_mem {c : Char} (hmem : c ∈ tokenCharacters) : StartsToken c := by
  have hstarts : ∀ c ∈ tokenCharacters, StartsToken c := by
    simp [tokenCharacters, StartsToken, IsBreak]
  exact hstarts c hmem

theorem utf8Len_chars (token : Token) : utf8Len token.chars = token.length := by
  have hrun : ∀ (c : Char) n, c.utf8Size = 1 → utf8Len (List.replicate n c) = n := by
    intro c n hone
    induction n with
    | zero => rfl
    | succ n ih => rw [List.replicate_succ, String.utf8Len_cons, ih, hone]
  cases token with
  | dots index => exact hrun '.' _ rfl
  | colons extra => exact hrun ':' _ rfl
  | _ => rfl

/-- A run that ends is not cut. -/
theorem EndsBefore.unbroken {token : Token} {text : List Char} (hends : EndsBefore text token) :
    Unbroken token.chars text := by
  intro c hc hlast
  have hmem := List.mem_of_getLast? hlast
  cases token with
  | dots index =>
      obtain rfl := List.eq_of_mem_replicate hmem
      exact hends
  | colons extra =>
      obtain rfl := List.eq_of_mem_replicate hmem
      exact hends
  | _ =>
      obtain rfl := List.mem_singleton.mp hmem
      simp at hc

/-! ### Standing and skipping -/

/-- A place between two parts of a text. The position belongs to the text before it, unless this
ends in a comment without a line break: then it is the start of another line. -/
structure StandsAt (before rest : List Char) (position : Position) : Prop where
  offset : position.offset = utf8Len before
  /-- It is not within a line break. -/
  pair : Unpaired before rest
  /-- It is not within a run. -/
  run : Unbroken before rest
  /-- It is not within a comment. -/
  comment : CommentOpen before → rest = []
  line : position.line = 1 + lineBreaks before + if CommentOpen before then 1 else 0
  column : position.column = if CommentOpen before then 1 else 1 + utf8Len (lastLine before)

/-- What a position says while trivia are skipped. Within a comment it has no column, and dots
and colons are not runs. -/
structure Skipping (comment : Bool) (before rest : List Char) (position : Position) : Prop where
  offset : position.offset = utf8Len before
  pair : Unpaired before rest
  run : comment = false → Unbroken before rest
  opened : CommentOpen before ↔ comment = true
  line : position.line = 1 + lineBreaks before
  column : comment = false → position.column = 1 + utf8Len (lastLine before)

namespace Skipping

variable {comment : Bool} {before rest text : List Char} {position : Position} {c : Char}

theorem standsAt (h : Skipping false before rest position) : StandsAt before rest position := by
  have hclosed : ¬ CommentOpen before := fun hopen => nomatch h.opened.mp hopen
  refine ⟨h.offset, h.pair, h.run rfl, fun hopen => absurd hopen hclosed, ?_, ?_⟩
  · rw [if_neg hclosed, Nat.add_zero, h.line]
  · rw [if_neg hclosed, h.column rfl]

/-- A comment that ends with the text ends its line. -/
theorem standsAt_end (h : Skipping true before [] position) :
    StandsAt before [] (position.newline 0) := by
  have hopen : CommentOpen before := h.opened.mpr rfl
  refine ⟨h.offset, h.pair, fun _ _ _ => nofun, fun _ => rfl, ?_, ?_⟩
  · rw [if_pos hopen, ← h.line]
    rfl
  · rw [if_pos hopen]
    rfl

/-- A line break of one character or two. -/
theorem newline (words : List Char)
    (h : Skipping comment before (words ++ [c] ++ text) position) (hbreak : IsBreak c)
    (hone : lineBreaks (words ++ [c]) = 1) (hpair : Unpaired (words ++ [c]) text) :
    Skipping false (before ++ (words ++ [c])) text
      (position.newline (utf8Len (words ++ [c]))) := by
  have hne : words ++ [c] ≠ [] := by simp
  have hempty : lastLine (before ++ (words ++ [c])) = [] := by
    rw [← List.append_assoc]
    exact lastLine_append_break hbreak
  refine ⟨?_, hpair.append_left hne, fun _ => ?_, ?_, ?_, fun _ => ?_⟩
  · rw [String.utf8Len_append before, ← h.offset]
    rfl
  · rintro x hx hlast
    have hlast : c = x := by simpa using hlast
    subst hlast
    rcases hbreak with rfl | rfl <;> simp at hx
  · simp [CommentOpen, hempty]
  · rw [lineBreaks_append (h.pair.of_append_right hne), hone, ← Nat.add_assoc, ← h.line]
    rfl
  · rw [hempty]
    rfl

/-- Text of one line outside of comments. -/
theorem advance (words : List Char) (h : Skipping false before (words ++ text) position)
    (hne : words ≠ []) (hwords : ∀ x ∈ words, ¬ IsBreak x) (hclosed : ';' ∉ words)
    (hrun : Unbroken words text) :
    Skipping false (before ++ words) text (position.advance (utf8Len words)) := by
  refine ⟨?_, (Unpaired.of_words hwords).append_left hne, fun _ => ?_, ?_, ?_, fun _ => ?_⟩
  · rw [String.utf8Len_append, ← h.offset]
    rfl
  · intro c hc hlast
    rw [List.getLast?_append_of_ne_nil _ hne] at hlast
    exact hrun c hc hlast
  · rw [commentOpen_append_words hwords, h.opened]
    simp [hclosed]
  · rw [lineBreaks_append_words hwords, ← h.line]
    rfl
  · rw [lastLine_append_words hwords, String.utf8Len_append, ← Nat.add_assoc, ← h.column rfl]
    rfl

theorem blank (h : Skipping false before (c :: text) position) (hblank : c = ' ' ∨ c = '\t') :
    Skipping false (before ++ [c]) text (position.advance 1) := by
  have hone : utf8Len [c] = 1 := by rcases hblank with rfl | rfl <;> rfl
  rw [← hone]
  refine advance [c] h (by simp) ?_ ?_ ?_
  · rcases hblank with rfl | rfl <;> simp [IsBreak]
  · rcases hblank with rfl | rfl <;> simp
  · intro x hx hlast
    have hlast : c = x := by simpa using hlast
    subst hlast
    rcases hblank with rfl | rfl <;> simp at hx

/-- A whole token. -/
theorem token {token : Token} (h : Skipping false before (token.chars ++ text) position)
    (hends : EndsBefore text token) :
    Skipping false (before ++ token.chars) text (position.advance token.length) := by
  rw [← utf8Len_chars token]
  refine advance token.chars h (chars_ne_nil token) ?_ ?_ hends.unbroken
  · intro x hx
    exact (startsToken_of_mem (mem_tokenCharacters hx)).1
  · intro hmem
    exact (startsToken_of_mem (mem_tokenCharacters hmem)).2.2.2 rfl

/-- The semicolon of a comment and every character in it. -/
theorem comment_char (h : Skipping comment before (c :: text) position) (hc : ¬ IsBreak c)
    (hopen : comment = true ∨ c = ';') :
    Skipping true (before ++ [c]) text
      { position with offset := position.offset + c.utf8Size } := by
  have hwords : ∀ x ∈ [c], ¬ IsBreak x := by simpa using hc
  refine ⟨?_, (Unpaired.of_words hwords).append_left (by simp), nofun, ?_, ?_, nofun⟩
  · rw [String.utf8Len_append, ← h.offset]
    simp
  · rw [commentOpen_append_words hwords, h.opened]
    rcases hopen with hopen | rfl
    · simp [hopen]
    · simp
  · rw [lineBreaks_append_words hwords, ← h.line]

/-- Skipping stops at a place, and what it has passed is between the two. -/
theorem exists_standsAt (h : Skipping comment before text position) :
    ∃ gap, text = gap ++ (skipTrivia comment position text).2 ∧
      StandsAt (before ++ gap) (skipTrivia comment position text).2
        (skipTrivia comment position text).1 := by
  -- A step passes the first characters, and the rest of the gap comes from the hypothesis.
  have hpass : ∀ {before words text gap rest : List Char} {stop : Position},
      text = gap ++ rest ∧ StandsAt (before ++ words ++ gap) rest stop →
        words ++ text = (words ++ gap) ++ rest ∧ StandsAt (before ++ (words ++ gap)) rest stop := by
    rintro before words text gap rest stop ⟨rfl, hstands⟩
    rw [List.append_assoc] at hstands
    exact ⟨(List.append_assoc _ _ _).symm, hstands⟩
  fun_induction skipTrivia comment position text generalizing before with
  | case1 comment position =>
      refine ⟨[], rfl, ?_⟩
      rw [List.append_nil]
      cases comment with
      | false => exact h.standsAt
      | true => exact h.standsAt_end
  | case2 comment position text ih =>
      have hnext : Skipping false (before ++ ['\r', '\n']) text (position.newline 2) :=
        newline ['\r'] h (.inl rfl) rfl (by simp [Unpaired])
      obtain ⟨gap, hgap⟩ := ih hnext
      exact ⟨['\r', '\n'] ++ gap, hpass hgap⟩
  | case3 comment position text hlf ih =>
      have hpair : Unpaired ['\r'] text := by
        intro _ hhead
        obtain ⟨rest, rfl⟩ := List.head?_eq_some_iff.mp hhead
        exact hlf rest rfl
      have hnext : Skipping false (before ++ ['\r']) text (position.newline 1) :=
        newline [] h (.inr rfl) rfl hpair
      obtain ⟨gap, hgap⟩ := ih hnext
      exact ⟨['\r'] ++ gap, hpass hgap⟩
  | case4 comment position text ih =>
      have hnext : Skipping false (before ++ ['\n']) text (position.newline 1) :=
        newline [] h (.inl rfl) rfl (by simp [Unpaired])
      obtain ⟨gap, hgap⟩ := ih hnext
      exact ⟨['\n'] ++ gap, hpass hgap⟩
  | case5 position c text hcrlf hcr hlf ih =>
      have hc : ¬ IsBreak c := fun hbreak => hbreak.elim hlf hcr
      obtain ⟨gap, hgap⟩ := ih (h.comment_char hc (.inl rfl))
      exact ⟨[c] ++ gap, hpass hgap⟩
  | case6 comment position c text hcrlf hcr hlf hcomment hblank ih =>
      obtain rfl : comment = false := by simpa using hcomment
      obtain ⟨gap, hgap⟩ := ih (h.blank hblank)
      exact ⟨[c] ++ gap, hpass hgap⟩
  | case7 comment position text hcomment hcrlf hcr hlf hblank ih =>
      obtain ⟨gap, hgap⟩ := ih (h.comment_char (by simp [IsBreak]) (.inr rfl))
      exact ⟨[';'] ++ gap, hpass hgap⟩
  | case8 comment position c text hcrlf hcr hlf hcomment hblank hsemicolon =>
      obtain rfl : comment = false := by simpa using hcomment
      refine ⟨[], rfl, ?_⟩
      rw [List.append_nil]
      exact h.standsAt

end Skipping

/-- In front of more text a position is not in a comment. -/
theorem StandsAt.skipping {before rest : List Char} {position : Position}
    (h : StandsAt before rest position) (hne : rest ≠ []) :
    Skipping false before rest position := by
  have hclosed : ¬ CommentOpen before := fun hopen => hne (h.comment hopen)
  refine ⟨h.offset, h.pair, fun _ => h.run, by simp [hclosed], ?_, fun _ => ?_⟩
  · rw [h.line, if_neg hclosed, Nat.add_zero]
  · rw [h.column, if_neg hclosed]

theorem skipping_start (text : List Char) : Skipping false [] text .start :=
  ⟨rfl, nofun, nofun, by simp [CommentOpen, lastLine], rfl, fun _ => rfl⟩

/-! ### The places of a scan -/

/-- How a scan goes on behind a text: the tokens that it still finds, each at its place, and the
place where it stops. -/
inductive Cuts : List Char → List Char → List (Position × Token) → Ending → Position → Prop where
  | last {before gap stop} (hgap : FinalTrivia gap) (hstop : StandsAt (before ++ gap) [] stop) :
      Cuts before gap [] .endOfText stop
  | strange {before gap c text stop} (hgap : Trivia gap) (hstarts : StartsToken c)
      (hread : Token.read? c text = none) (hstop : StandsAt (before ++ gap) (c :: text) stop) :
      Cuts before (gap ++ c :: text) [] .strangeCharacter stop
  | token {before gap text token tokens ending position stop} (hgap : Trivia gap)
      (hends : EndsBefore text token)
      (hplace : StandsAt (before ++ gap) (token.chars ++ text) position)
      (hrest : Cuts (before ++ gap ++ token.chars) text tokens ending stop) :
      Cuts before (gap ++ (token.chars ++ text)) ((position, token) :: tokens) ending stop

theorem Skipping.of_end {before text : List Char} {position stop : Position}
    (h : Skipping false before text position)
    (hskip : skipTrivia false position text = (stop, [])) :
    FinalTrivia text ∧ StandsAt (before ++ text) [] stop := by
  obtain ⟨gap, htext, hstop⟩ := h.exists_standsAt
  have hskips := skips_skipTrivia false position text
  rw [hskip] at htext hstop hskips
  obtain rfl : text = gap := by simpa using htext
  rcases hskips with ⟨_, hfinal⟩ | ⟨_, _, _, hrest, _⟩
  · exact ⟨hfinal, hstop⟩
  · cases hrest

theorem Skipping.exists_gap {before text tail : List Char} {position start : Position} {c : Char}
    (h : Skipping false before text position)
    (hskip : skipTrivia false position text = (start, c :: tail)) :
    ∃ gap, text = gap ++ c :: tail ∧ Trivia gap ∧ StartsToken c ∧
      StandsAt (before ++ gap) (c :: tail) start := by
  obtain ⟨gap, htext, hstart⟩ := h.exists_standsAt
  have hskips := skips_skipTrivia false position text
  rw [hskip] at htext hstart hskips
  rcases hskips with ⟨hrest, _⟩ | ⟨gap', _, _, hrest, htext', hgap, hstarts⟩
  · cases hrest
  · cases hrest
    obtain rfl := List.append_cancel_right (htext.symm.trans htext')
    exact ⟨gap, htext, hgap, hstarts, hstart⟩

/-- A scan that starts at a place cuts the text behind it. -/
theorem scanFrom_cuts {position : Position} {before text : List Char}
    (found : List (Position × Token)) (h : Skipping false before text position) :
    ∃ tokens, (scanFrom position text found).tokens = found.reverse ++ tokens ∧
      Cuts before text tokens (scanFrom position text found).ending
        (scanFrom position text found).stop := by
  fun_induction scanFrom position text found generalizing before with
  | case1 position text found stop hskip =>
      obtain ⟨hfinal, hstop⟩ := h.of_end hskip
      exact ⟨[], (List.append_nil _).symm, .last hfinal hstop⟩
  | case2 position text found stop first tail hskip hread =>
      obtain ⟨gap, rfl, hgap, hstarts, hstop⟩ := h.exists_gap hskip
      exact ⟨[], (List.append_nil _).symm, .strange hgap hstarts hread hstop⟩
  | case3 position text found start first tail hskip token rest hread ih =>
      obtain ⟨gap, rfl, hgap, _, hplace⟩ := h.exists_gap hskip
      have hends := endsBefore_of_read? hread
      rw [← Token.chars_append_of_read? hread] at hplace
      have hne : token.chars ++ rest ≠ [] := by simp [chars_ne_nil]
      obtain ⟨tokens, htokens, hcuts⟩ := ih ((hplace.skipping hne).token hends)
      refine ⟨(start, token) :: tokens, ?_, ?_⟩
      · rw [htokens, List.reverse_cons, List.append_assoc]
        rfl
      · rw [← Token.chars_append_of_read? hread]
        exact .token hgap hends hplace hcuts

theorem scan_cuts (text : List Char) :
    Cuts [] text (scan text).tokens (scan text).ending (scan text).stop := by
  obtain ⟨tokens, htokens, hcuts⟩ := scanFrom_cuts [] (skipping_start text)
  obtain rfl : (scan text).tokens = tokens := htokens
  exact hcuts

/-- A token begins with a character that begins a token. -/
theorem startsToken_of_head {token : Token} {text : List Char} :
    ∀ c ∈ (token.chars ++ text).head?, StartsToken c := by
  intro c hhead
  rw [List.head?_append_of_ne_nil _ (chars_ne_nil token)] at hhead
  exact startsToken_of_mem (mem_tokenCharacters (List.mem_of_mem_head? hhead))

/-- Every position of a scan stands at a place of the text, and no trivia begin there. -/
theorem Cuts.exists_startsToken {before text : List Char} {tokens : List (Position × Token)}
    {ending : Ending} {stop position : Position} (hcuts : Cuts before text tokens ending stop)
    (hmem : position ∈ stop :: tokens.map Prod.fst) :
    ∃ passed rest, text = passed ++ rest ∧ StandsAt (before ++ passed) rest position ∧
      ∀ c ∈ rest.head?, StartsToken c := by
  induction hcuts with
  | last _ hstop =>
      obtain rfl := List.mem_singleton.mp hmem
      exact ⟨_, [], (List.append_nil _).symm, hstop, nofun⟩
  | strange _ hstarts _ hstop =>
      obtain rfl := List.mem_singleton.mp hmem
      refine ⟨_, _, rfl, hstop, ?_⟩
      rintro _ ⟨⟩
      exact hstarts
  | @token before gap text token tokens ending head stop _ _ hplace _ ih =>
      by_cases hhead : position = head
      · subst hhead
        exact ⟨_, _, rfl, hplace, startsToken_of_head⟩
      · have hrest : position ∈ stop :: tokens.map Prod.fst := by
          simpa [hhead] using hmem
        obtain ⟨passed, rest, rfl, hstands, hstarts⟩ := ih hrest
        refine ⟨gap ++ token.chars ++ passed, rest, by simp only [List.append_assoc], ?_, hstarts⟩
        simpa only [List.append_assoc] using hstands

theorem Cuts.exists_standsAt {before text : List Char} {tokens : List (Position × Token)}
    {ending : Ending} {stop position : Position} (hcuts : Cuts before text tokens ending stop)
    (hmem : position ∈ stop :: tokens.map Prod.fst) :
    ∃ passed rest, text = passed ++ rest ∧ StandsAt (before ++ passed) rest position := by
  obtain ⟨passed, rest, htext, hstands, _⟩ := hcuts.exists_startsToken hmem
  exact ⟨passed, rest, htext, hstands⟩

theorem finish_error_mem {arena : Program} {root : Ref} {ending : Ending} {stop : Position}
    {tokens : List (Position × Token)} {error : SyntaxError}
    (herror : (finish arena root ending stop tokens).result = .error error) :
    error.position ∈ stop :: tokens.map Prod.fst := by
  cases tokens with
  | nil =>
      cases ending with
      | endOfText => cases herror
      | strangeCharacter =>
          cases herror
          exact List.mem_cons_self
  | cons next tokens =>
      cases herror
      simp

/-- An error is at a token or where the scan stopped. -/
theorem readTokens_error_mem {ending : Ending} {stop : Position} {reading : Reading}
    {tokens : List (Position × Token)} {error : SyntaxError}
    (herror : (readTokens ending stop reading tokens).result = .error error) :
    error.position ∈ stop :: tokens.map Prod.fst := by
  induction tokens generalizing reading with
  | nil =>
      cases ending <;> (cases herror; exact List.mem_cons_self)
  | cons head tokens ih =>
      obtain ⟨position, token⟩ := head
      obtain ⟨arena, frames, depth⟩ := reading
      have hlater : error.position ∈ stop :: tokens.map Prod.fst →
          error.position ∈ stop :: ((position, token) :: tokens).map Prod.fst := by
        intro hmem
        rcases List.mem_cons.mp hmem with hstop | hmem
        · exact List.mem_cons.mpr (.inl hstop)
        · exact List.mem_cons_of_mem _ (List.mem_cons_of_mem _ hmem)
      rw [readTokens] at herror
      split at herror
      next kind hmeaning =>
          cases herror
          simp
      next => exact hlater (ih herror)
      next => exact hlater (ih herror)
      next node hmeaning =>
          apply hlater
          cases hcomplete :
            Reading.complete (arena.alloc node).2 depth (arena.alloc node).1 frames with
          | waiting reading =>
              simp only [hcomplete] at herror
              exact ih herror
          | root arena root =>
              simp only [hcomplete] at herror
              exact finish_error_mem herror

/-- A syntax error stands at a place of the text: on a boundary of characters, not within a line
break, a comment or a run, and its line and column are those of the text before it. Only at the
end of a text that ends in a comment without a line break it counts as in a line of its own. -/
theorem parse_error_place (text : String) (arena : Program) (error : SyntaxError)
    (herror : (parse text arena).result = .error error) :
    error.position.offset ≤ text.utf8ByteSize ∧
    String.Pos.Raw.IsValid text ⟨error.position.offset⟩ ∧
    ∃ before rest : String, text = before ++ rest ∧
      StandsAt before.toList rest.toList error.position := by
  obtain ⟨passed, rest, htext, hstands⟩ :=
    (scan_cuts text.toList).exists_standsAt (readTokens_error_mem herror)
  have happend : text = .ofList passed ++ .ofList rest := by
    rw [← String.ofList_append, ← htext, String.ofList_toList]
  have hoffset : error.position.offset = (String.ofList passed).utf8ByteSize := by
    rw [hstands.offset, List.nil_append, String.utf8ByteSize_ofList]
  refine ⟨?_, ?_, _, _, happend, ?_⟩
  · rw [happend, hoffset, String.utf8ByteSize_append]
    exact Nat.le_add_right _ _
  · rw [String.Pos.Raw.isValid_iff_exists_append]
    exact ⟨_, _, happend, congrArg String.Pos.Raw.mk hoffset⟩
  · simpa only [String.toList_ofList, List.nil_append] using hstands

/-- The end of a text with one line break and a comment behind it is in a third line. -/
theorem parse_error_place_comment :
    (parse "'\r\n;é" .empty).result = .error ⟨.unexpectedEnd, ⟨6, 3, 1⟩⟩ ∧
    ∃ before rest : String, "'\r\n;é" = before ++ rest ∧
      StandsAt before.toList rest.toList ⟨6, 3, 1⟩ := by
  have herror : (parse "'\r\n;é" .empty).result = .error ⟨.unexpectedEnd, ⟨6, 3, 1⟩⟩ := by
    decide +kernel
  obtain ⟨_, _, hplace⟩ := parse_error_place _ _ _ herror
  exact ⟨herror, hplace⟩

end LambdaMachine.Source
