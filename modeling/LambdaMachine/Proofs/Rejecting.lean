import LambdaMachine.Proofs.Beginnings
import LambdaMachine.Proofs.Remnants

/-!
# Where and why a text is rejected

A rejected text is cut at its error. What stands in front of the cut can be continued to a
program, and with the token or character behind it it cannot (`Rejection`). The kind of the error
says which of the reasons it is that there is no continuation.

Reading is followed token by token: the frames that wait are those of the tokens in front of
the next term (`Consumed`), and each token has been stored or is the one of a frame.
-/

namespace LambdaMachine.Source

open String (utf8Len)

/-! ### Tokens that have been read -/

/-- What has been read when these frames wait, under a number of abstractions. -/
inductive Consumed : List Frame → List Token → Nat → Prop where
  | nil : Consumed [] [] 0
  | lam {frames tokens depth} (h : Consumed frames tokens depth) :
      Consumed (.lam :: frames) (tokens ++ [.lam]) (depth + 1)
  | app {frames tokens depth} (h : Consumed frames tokens depth) :
      Consumed (.app :: frames) (tokens ++ [.app]) depth
  | appTo {frames tokens depth tokens' function} (ref : Ref) (h : Consumed frames tokens depth)
      (hfunction : Derives depth tokens' function) :
      Consumed (.appTo ref :: frames) (tokens ++ .app :: tokens') depth

/-- Why reading stops behind these tokens, in front of the last ones, with so many nodes that wait
for their parts. -/
inductive Halts (ending : Ending) (stop : Position) :
    List Token → List (Position × Token) → SyntaxError → Nat → Prop where
  | unread {tokens position token kind depth waiting last} (hawaits : Awaits 0 tokens depth waiting)
      (hmeaning : Reading.meaning depth token = .error kind) :
      Halts ending stop tokens ((position, token) :: last) ⟨kind, position⟩ waiting
  | late {tokens position token term last} (hwhole : Derives 0 tokens term) :
      Halts ending stop tokens ((position, token) :: last) ⟨.unexpectedToken, position⟩ 0
  | strange {tokens waiting} (hviable : Viable tokens waiting)
      (hending : ending = .strangeCharacter) :
      Halts ending stop tokens [] ⟨.unexpectedCharacter, stop⟩ waiting
  | short {tokens depth waiting} (hawaits : Awaits 0 tokens depth waiting)
      (hending : ending = .endOfText) :
      Halts ending stop tokens [] ⟨.unexpectedEnd, stop⟩ waiting

variable {arena : Program} {frames : List Frame} {depth waiting : Nat} {tokens : List Token}
  {token : Token} {term : Term Atom} {ending : Ending} {stop : Position}
  {before text rest after : List Char}

/-- What the tokens of a finished part lead to, when so many nodes are stored or wait for their
parts. -/
def Completes (tokens : List Token) (count : Nat) : Reading.Completion → Prop
  | .root arena _ =>
      arena.WellFormed ∧ arena.live = count ∧ ∃ whole, Derives 0 tokens whole
  | .waiting reading =>
      reading.arena.WellFormed ∧ reading.arena.live + reading.frames.length = count ∧
        Consumed reading.frames tokens reading.depth

namespace Consumed

theorem awaits (h : Consumed frames tokens depth) : Awaits 0 tokens depth frames.length := by
  induction h with
  | nil => exact .here
  | lam _ ih => exact ih.trans (.lam .here)
  | app _ ih => exact ih.trans (.function .here)
  | appTo _ _ hfunction ih =>
      have hargument := Awaits.argument hfunction .here
      rw [List.append_nil] at hargument
      exact ih.trans hargument

/-- A finished part completes the program or leads to frames that wait again. A frame that it
finishes is exchanged for a node. -/
theorem completes (h : Consumed frames tokens depth) {part : List Token} (ref : Ref)
    (hwf : arena.WellFormed) (hpart : Derives depth part term) :
    Completes (tokens ++ part) (arena.live + frames.length)
      (Reading.complete arena depth ref frames) := by
  induction h generalizing part term ref arena with
  | nil => exact ⟨hwf, rfl, term, hpart⟩
  | lam _ ih =>
      rw [List.append_assoc, List.length_cons, Nat.add_comm _ 1, ← Nat.add_assoc,
        ← hwf.live_alloc (.lam ref)]
      exact ih _ (hwf.alloc _) (.lam hpart)
  | app h _ =>
      rw [List.append_assoc]
      exact ⟨hwf, rfl, .appTo ref h hpart⟩
  | appTo ref' _ hfunction ih =>
      rw [List.append_assoc, List.length_cons, Nat.add_comm _ 1, ← Nat.add_assoc,
        ← hwf.live_alloc (.app ref' ref)]
      exact ih _ (hwf.alloc _) (.app hfunction hpart)

/-- A leaf is stored, and is a part that is finished. -/
theorem exists_completes (h : Consumed frames tokens depth) (hwf : arena.WellFormed)
    {position : Position} {node : Node Atom} {last : List (Position × Token)}
    (hmeaning : Reading.meaning depth token = .ok (.leaf node)) :
    ∃ completion, Completes (tokens ++ [token]) (arena.live + frames.length + 1) completion ∧
      readTokens ending stop ⟨arena, frames, depth⟩ ((position, token) :: last) =
        proceed ending stop completion last := by
  obtain ⟨leaf, hleaf⟩ := begins_of_meaning hmeaning
  have hcompletes := h.completes (arena.alloc node).1 (hwf.alloc node) hleaf
  rw [hwf.live_alloc, Nat.add_right_comm] at hcompletes
  exact ⟨_, hcompletes, readTokens_leaf hmeaning rfl⟩

end Consumed

/-- Behind a whole program there is an error at the next token, or at a strange character. -/
theorem finish_halts {root : Ref} {error : SyntaxError} {last : List (Position × Token)}
    (hwhole : Derives 0 tokens term)
    (herror : (finish arena root ending stop last).result = .error error) :
    Halts ending stop tokens last error 0 := by
  cases last with
  | nil =>
      cases ending with
      | endOfText => cases herror
      | strangeCharacter =>
          cases herror
          exact .strange (.whole hwhole) rfl
  | cons next last =>
      cases herror
      exact .late hwhole

/-- Reading stops for a reason, and every token read so far is stored or waits for its parts. -/
theorem Consumed.exists_halts {read : List Token} {last : List (Position × Token)}
    {error : SyntaxError} (h : Consumed frames read depth) (hwf : arena.WellFormed)
    (herror : (readTokens ending stop ⟨arena, frames, depth⟩ last).result = .error error) :
    ∃ first last' waiting, last = first ++ last' ∧
      Halts ending stop (read ++ first.map Prod.snd) last' error waiting ∧
      (readTokens ending stop ⟨arena, frames, depth⟩ last).arena.live + waiting =
        arena.live + frames.length + first.length := by
  induction last generalizing arena frames depth read with
  | nil =>
      refine ⟨[], [], frames.length, rfl, ?_, ?_⟩
      · rw [List.map_nil, List.append_nil]
        cases ending with
        | endOfText =>
            cases herror
            exact .short h.awaits rfl
        | strangeCharacter =>
            cases herror
            exact .strange (.awaits h.awaits) rfl
      · cases ending <;> rfl
  | cons head last ih =>
      obtain ⟨position, token⟩ := head
      -- Reading goes on behind the token when one more node is stored or waits.
      have hon : ∀ reading : Reading, Consumed reading.frames (read ++ [token]) reading.depth →
          reading.arena.WellFormed →
          reading.arena.live + reading.frames.length = arena.live + frames.length + 1 →
          (readTokens ending stop reading last).result = .error error →
          ∃ first last' waiting, (position, token) :: last = first ++ last' ∧
            Halts ending stop (read ++ first.map Prod.snd) last' error waiting ∧
            (readTokens ending stop reading last).arena.live + waiting =
              arena.live + frames.length + first.length := by
        intro reading hconsumed hwf hcount herror
        obtain ⟨first, last', waiting, rfl, hhalts, hlive⟩ := ih hconsumed hwf herror
        rw [List.append_assoc] at hhalts
        refine ⟨(position, token) :: first, last', waiting, rfl, hhalts, ?_⟩
        rw [hlive, hcount, List.length_cons]
        omega
      cases hmeaning : Reading.meaning depth token with
      | error kind =>
          simp only [readTokens, hmeaning] at herror ⊢
          cases herror
          refine ⟨[], _, frames.length, rfl, ?_, rfl⟩
          rw [List.map_nil, List.append_nil]
          exact .unread h.awaits hmeaning
      | ok meaning =>
          have hbegins := begins_of_meaning hmeaning
          cases meaning with
          | abstraction =>
              obtain rfl : token = .lam := hbegins
              simp only [readTokens, hmeaning] at herror ⊢
              exact hon _ h.lam hwf rfl herror
          | application =>
              obtain rfl : token = .app := hbegins
              simp only [readTokens, hmeaning] at herror ⊢
              exact hon _ h.app hwf rfl herror
          | leaf node =>
              obtain ⟨completion, hcompletes, hread⟩ := h.exists_completes hwf hmeaning
              rw [hread] at herror ⊢
              cases completion with
              | root arena' root =>
                  obtain ⟨_, hcount, whole, hwhole⟩ := hcompletes
                  refine ⟨[(position, token)], last, 0, rfl, finish_halts hwhole herror, ?_⟩
                  rw [proceed, finish_arena]
                  exact hcount
              | waiting reading =>
                  obtain ⟨hwf', hcount, hconsumed⟩ := hcompletes
                  exact hon reading hconsumed hwf' hcount herror

/-! ### Texts that are cut at an error -/

/-- Why no program goes on with the rest of a text behind these tokens, with so many parts of it
begun and not finished. -/
inductive Obstacle (tokens : List Token) : List Char → SyntaxError.Kind → Nat → Prop where
  | unbound {index : Nat} {after : List Char} {depth waiting : Nat}
      (hawaits : Awaits 0 tokens depth waiting) (hdepth : depth ≤ index)
      (hends : EndsBefore after (.dots index)) :
      Obstacle tokens (Token.chars (.dots index) ++ after) .unboundArgument waiting
  | unknown {extra : Nat} {after : List Char} {depth waiting : Nat}
      (hawaits : Awaits 0 tokens depth waiting) (hextra : 3 ≤ extra)
      (hends : EndsBefore after (.colons extra)) :
      Obstacle tokens (Token.chars (.colons extra) ++ after) .unknownBuiltin waiting
  | late {token : Token} {after : List Char} {term : Term Atom} (hwhole : Derives 0 tokens term)
      (hends : EndsBefore after token) :
      Obstacle tokens (token.chars ++ after) .unexpectedToken 0
  | strange {c : Char} {after : List Char} {waiting : Nat} (hviable : Viable tokens waiting)
      (htoken : c ∉ tokenCharacters) (htrivia : c ∉ triviaCharacters) :
      Obstacle tokens (c :: after) .unexpectedCharacter waiting
  | short {depth waiting : Nat} (hawaits : Awaits 0 tokens depth waiting) :
      Obstacle tokens [] .unexpectedEnd waiting

/-- A token that does not stand for the awaited term is a run that is too long. -/
theorem Obstacle.of_meaning {kind : SyntaxError.Kind} (hawaits : Awaits 0 tokens depth waiting)
    (hmeaning : Reading.meaning depth token = .error kind) (hends : EndsBefore after token) :
    Obstacle tokens (token.chars ++ after) kind waiting := by
  cases token with
  | lam => cases hmeaning
  | app => cases hmeaning
  | unit => cases hmeaning
  | dots index =>
      simp only [Reading.meaning] at hmeaning
      split at hmeaning
      next => cases hmeaning
      next hdepth =>
          cases hmeaning
          exact .unbound hawaits (Nat.le_of_not_lt hdepth) hends
  | colons extra =>
      by_cases hextra : 3 ≤ extra
      · obtain ⟨more, rfl⟩ := Nat.exists_eq_add_of_le' hextra
        cases hmeaning
        exact .unknown hawaits hextra hends
      · obtain rfl | rfl | rfl : extra = 0 ∨ extra = 1 ∨ extra = 2 := by omega
        all_goals cases hmeaning

/-- The text in front of an error is spelled by the tokens that have been read. -/
theorem Cuts.exists_obstacle {read : List Token} {first last : List (Position × Token)}
    {error : SyntaxError} (hcuts : Cuts before text (first ++ last) ending stop)
    (hhalts : Halts ending stop (read ++ first.map Prod.snd) last error waiting) :
    ∃ passed rest, text = passed ++ rest ∧ StandsAt (before ++ passed) rest error.position ∧
      Spells (first.map Prod.snd) passed ∧
      Obstacle (read ++ first.map Prod.snd) rest error.kind waiting := by
  induction first generalizing before text read with
  | nil =>
      cases hhalts with
      | unread hawaits hmeaning =>
          cases hcuts with
          | token hgap hends hplace _ =>
              exact ⟨_, _, rfl, hplace, .nil (.trivia hgap), .of_meaning hawaits hmeaning hends⟩
      | late hwhole =>
          cases hcuts with
          | token hgap hends hplace _ =>
              exact ⟨_, _, rfl, hplace, .nil (.trivia hgap), .late hwhole hends⟩
      | strange hviable hending =>
          cases hcuts with
          | last => cases hending
          | strange hgap hstarts hread hstop =>
              exact ⟨_, _, rfl, hstop, .nil (.trivia hgap), .strange hviable
                (read?_eq_none_iff.mp hread) (startsToken_iff.mp hstarts)⟩
      | short hawaits hending =>
          cases hcuts with
          | strange => cases hending
          | last hgap hstop =>
              exact ⟨_, [], (List.append_nil _).symm, hstop, .nil hgap, .short hawaits⟩
  | cons head first ih =>
      cases hcuts with
      | @token _ gap text token _ _ position _ hgap hends hplace hrest =>
          rw [List.map_cons, List.append_cons] at hhalts
          obtain ⟨passed, rest, rfl, hstands, hspells, hobstacle⟩ := ih hrest hhalts
          refine ⟨gap ++ token.chars ++ passed, rest, by simp only [List.append_assoc], ?_,
            .cons hgap hends.of_append hspells, ?_⟩
          · simpa only [List.append_assoc] using hstands
          · rw [List.map_cons, List.append_cons]
            exact hobstacle

/-- A rejected text is cut where it stops to be the beginning of a program. -/
theorem exists_obstacle {text : String} {error : SyntaxError} (hwf : arena.WellFormed)
    (herror : (parse text arena).result = .error error) :
    ∃ before rest tokens waiting, text.toList = before ++ rest ∧
      StandsAt before rest error.position ∧ Spells tokens before ∧
      Obstacle tokens rest error.kind waiting ∧
      (parse text arena).arena.live + waiting = arena.live + tokens.length := by
  obtain ⟨first, last, waiting, htokens, hhalts, hlive⟩ :=
    Consumed.nil.exists_halts hwf herror
  have hcuts := scan_cuts text.toList
  rw [htokens] at hcuts
  obtain ⟨before, rest, htext, hstands, hspells, hobstacle⟩ := hcuts.exists_obstacle hhalts
  refine ⟨before, rest, first.map Prod.snd, waiting, htext, hstands, hspells, hobstacle, ?_⟩
  rw [List.length_map]
  exact hlive

/-! ### Reasons against every continuation -/

/-- With what stands behind the tokens they cannot be continued to a program. -/
theorem Obstacle.not_derives {kind : SyntaxError.Kind} {more : List Char} {tokens' : List Token}
    (h : Obstacle tokens rest kind waiting) (hne : rest ≠ [])
    (hspells : Spells tokens' (offending rest ++ more)) : ¬ Derives 0 (tokens ++ tokens') term := by
  intro hwhole
  -- The offending token is the first of the others, or a longer run is.
  have hnext : ∀ {token after}, EndsBefore after token → rest = token.chars ++ after →
      ∃ token' more', tokens' = token' :: more' ∧ Lengthens token token' := by
    rintro token after hends rfl
    rw [offending_chars hends] at hspells
    exact hspells.exists_lengthens
  cases h with
  | unbound hawaits hdepth hends =>
      obtain ⟨token', more', rfl, hlengthens⟩ := hnext hends rfl
      obtain ⟨part, awaited, hderives⟩ := hawaits.exists_derives_cons hwhole
      cases hlengthens with
      | same => exact absurd hderives.of_dots (Nat.not_lt.mpr hdepth)
      | dots hle => exact absurd hderives.of_dots (Nat.not_lt.mpr (hdepth.trans hle))
  | unknown hawaits hextra hends =>
      obtain ⟨token', more', rfl, hlengthens⟩ := hnext hends rfl
      obtain ⟨part, awaited, hderives⟩ := hawaits.exists_derives_cons hwhole
      cases hlengthens with
      | same => exact absurd hderives.of_colons (Nat.not_lt.mpr hextra)
      | colons hle => exact absurd hderives.of_colons (Nat.not_lt.mpr (hextra.trans hle))
  | late hwhole' hends =>
      obtain ⟨token', more', rfl, _⟩ := hnext hends rfl
      have hsame : tokens ++ (token' :: more') = tokens ++ token' :: more' ++ [] :=
        (List.append_nil _).symm
      obtain ⟨_, hnil⟩ := hwhole'.det hwhole hsame
      cases hnil
  | strange _ htoken htrivia =>
      rw [offending_strange htoken] at hspells
      obtain ⟨token', more', after', rfl, hsame, _⟩ :=
        hspells.of_startsToken (startsToken_iff.mpr htrivia)
      exact htoken (head_mem_tokenCharacters hsame.symm)
  | short => exact hne rfl

theorem Obstacle.viable {kind : SyntaxError.Kind} (h : Obstacle tokens rest kind waiting) :
    Viable tokens waiting := by
  cases h with
  | unbound hawaits => exact .awaits hawaits
  | unknown hawaits => exact .awaits hawaits
  | late hwhole => exact .whole hwhole
  | strange hviable => exact hviable
  | short hawaits => exact .awaits hawaits

/-! ### The first place at which a text is no beginning of a program -/

/-- A text is accepted when it is read into an empty arena. -/
def Accepted (text : List Char) : Prop :=
  ∃ root, (parse (.ofList text) .empty).result = .ok root

/-- Behind this text the next thing in a program is a term, under so many abstractions. -/
def TermExpected (text : List Char) (depth : Nat) : Prop :=
  ∃ tokens waiting, Spells tokens text ∧ Awaits 0 tokens depth waiting

/-- How often a text begins with a character. -/
def runLength (c : Char) (text : List Char) : Nat :=
  (text.takeWhile (· == c)).length

/-- Where a text is cut when it is rejected, and what each kind of error says about the place. -/
structure Rejection (before rest : List Char) (kind : SyntaxError.Kind) : Prop where
  /-- The text in front can be continued to a program. -/
  viable : ∃ more, Accepted (before ++ more)
  /-- With the offending token or character it cannot. -/
  refused : rest ≠ [] → ∀ more, ¬ Accepted (before ++ offending rest ++ more)
  atEnd : kind = .unexpectedEnd → rest = []
  unexpectedEnd_iff : kind = .unexpectedEnd ↔ ∃ more, Accepted (before ++ rest ++ more)
  unexpectedToken_iff : kind = .unexpectedToken ↔
    Accepted before ∧ ∃ c after, rest = c :: after ∧ c ∈ tokenCharacters
  unexpectedCharacter_iff : kind = .unexpectedCharacter ↔
    ∃ c after, rest = c :: after ∧ c ∉ tokenCharacters ∧ c ∉ triviaCharacters
  unboundArgument_iff : kind = .unboundArgument ↔
    ∃ depth, TermExpected before depth ∧ depth < runLength '.' rest
  unknownBuiltin_iff : kind = .unknownBuiltin ↔
    (∃ depth, TermExpected before depth) ∧ 4 ≤ runLength ':' rest

theorem runLength_run {c : Char} (n : Nat) (hends : text.head? ≠ some c) :
    runLength c (List.replicate n c ++ text) = n :=
  (run_read n hends).1

theorem runLength_cons_of_ne {c x : Char} (hne : x ≠ c) : runLength c (x :: text) = 0 := by
  simp [runLength, hne]

theorem accepted_iff :
    Accepted text ↔ ∃ tokens term, Spells tokens text ∧ Derives 0 tokens term := by
  constructor
  · rintro ⟨root, hok⟩
    have hprogram := exists_isProgram Arena.wellFormed_empty hok
    rwa [String.toList_ofList] at hprogram
  · rintro ⟨tokens, term, hspells, hderives⟩
    rw [← String.toList_ofList (l := text)] at hspells
    obtain ⟨layout, _, hok, _⟩ := IsProgram.exists_parse Arena.wellFormed_empty hspells hderives
    exact ⟨layout.root, hok⟩

theorem Spells.det {tokens' : List Token} (hleft : Spells tokens text)
    (hright : Spells tokens' text) : tokens = tokens' :=
  ((scan_spells_iff _ _).mpr hleft).2.symm.trans ((scan_spells_iff _ _).mpr hright).2

theorem Spells.accepted_iff (hspells : Spells tokens text) :
    Accepted text ↔ ∃ term, Derives 0 tokens term := by
  rw [Source.accepted_iff]
  constructor
  · rintro ⟨tokens', term, hspells', hderives⟩
    obtain rfl := hspells.det hspells'
    exact ⟨term, hderives⟩
  · rintro ⟨term, hderives⟩
    exact ⟨tokens, term, hspells, hderives⟩

theorem Spells.termExpected_iff (hspells : Spells tokens text) :
    TermExpected text depth ↔ ∃ waiting, Awaits 0 tokens depth waiting := by
  constructor
  · rintro ⟨tokens', waiting, hspells', hawaits⟩
    obtain rfl := hspells.det hspells'
    exact ⟨waiting, hawaits⟩
  · rintro ⟨waiting, hawaits⟩
    exact ⟨tokens, waiting, hspells, hawaits⟩

theorem Viable.exists_accepted (hviable : Viable tokens waiting) (hspells : Spells tokens before) :
    ∃ more, Accepted (before ++ more) := by
  obtain ⟨more, whole, hwhole⟩ := hviable.exists_derives
  obtain ⟨text, htext⟩ := exists_spells more
  refine ⟨'\n' :: text, ?_⟩
  rw [(hspells.append_line htext).accepted_iff]
  exact ⟨whole, hwhole⟩

namespace Obstacle

variable {kind : SyntaxError.Kind}

theorem refused (h : Obstacle tokens rest kind waiting) (hspells : Spells tokens before)
    (hclosed : ¬ CommentOpen before) (hrun : Unbroken before rest) (hne : rest ≠ [])
    (more : List Char) : ¬ Accepted (before ++ offending rest ++ more) := by
  intro haccepted
  have hrun' : Unbroken before (offending rest ++ more) := by
    obtain ⟨c, text, rfl⟩ := List.exists_cons_of_ne_nil hne
    obtain ⟨tail, htail⟩ := exists_offending_cons c text
    rw [htail]
    exact hrun
  rw [List.append_assoc, accepted_iff] at haccepted
  obtain ⟨_, term, hspells', hderives⟩ := haccepted
  obtain ⟨tokens', rfl, hmore⟩ := hspells.exists_append hclosed hrun' hspells'
  exact h.not_derives hne hmore hderives

theorem eq_nil_iff (h : Obstacle tokens rest kind waiting) :
    kind = .unexpectedEnd ↔ rest = [] := by
  cases h <;> simp [chars_ne_nil]

theorem unexpectedToken_iff (h : Obstacle tokens rest kind waiting) :
    kind = .unexpectedToken ↔ (∃ term, Derives 0 tokens term) ∧
      ∃ c after, rest = c :: after ∧ c ∈ tokenCharacters := by
  cases h with
  | unbound hawaits => simp [hawaits.not_derives]
  | unknown hawaits => simp [hawaits.not_derives]
  | @late token after term hwhole hends =>
      obtain ⟨c, tail, hchars, hc⟩ := exists_chars_cons token
      simp only [true_iff]
      exact ⟨⟨term, hwhole⟩, c, tail ++ after, by rw [hchars]; rfl, hc⟩
  | strange _ htoken => simp [htoken]
  | short => simp

theorem unexpectedCharacter_iff (h : Obstacle tokens rest kind waiting) :
    kind = .unexpectedCharacter ↔
      ∃ c after, rest = c :: after ∧ c ∉ tokenCharacters ∧ c ∉ triviaCharacters := by
  have hother : ∀ token after, ¬ ∃ c after', Token.chars token ++ after = c :: after' ∧
      c ∉ tokenCharacters ∧ c ∉ triviaCharacters := by
    rintro token after ⟨c, after', hsame, htoken, _⟩
    exact htoken (head_mem_tokenCharacters hsame)
  cases h with
  | unbound => simpa using hother _ _
  | unknown => simpa using hother _ _
  | late => simpa using hother _ _
  | strange _ htoken htrivia => simp [htoken, htrivia]
  | short => simp

theorem unboundArgument_iff (h : Obstacle tokens rest kind waiting) :
    kind = .unboundArgument ↔
      ∃ depth waiting, Awaits 0 tokens depth waiting ∧ depth < runLength '.' rest := by
  cases h with
  | @unbound index after depth waiting hawaits hdepth hends =>
      have hrun : runLength '.' (Token.chars (.dots index) ++ after) = index + 1 :=
        runLength_run _ hends
      simp only [true_iff, hrun]
      exact ⟨depth, waiting, hawaits, Nat.lt_succ_of_le hdepth⟩
  | unknown => simp [Token.chars, List.replicate_succ, runLength_cons_of_ne]
  | late hwhole =>
      simp only [reduceCtorEq, false_iff]
      rintro ⟨depth, waiting, hawaits, _⟩
      exact hawaits.not_derives hwhole
  | @strange c after _ _ htoken =>
      have hne : c ≠ '.' := by
        rintro rfl
        simp [tokenCharacters] at htoken
      simp [runLength_cons_of_ne hne]
  | short => simp [runLength]

theorem unknownBuiltin_iff (h : Obstacle tokens rest kind waiting) :
    kind = .unknownBuiltin ↔
      (∃ depth waiting, Awaits 0 tokens depth waiting) ∧ 4 ≤ runLength ':' rest := by
  cases h with
  | unbound => simp [Token.chars, List.replicate_succ, runLength_cons_of_ne]
  | @unknown extra after depth waiting hawaits hextra hends =>
      have hrun : runLength ':' (Token.chars (.colons extra) ++ after) = extra + 1 :=
        runLength_run _ hends
      simp only [true_iff, hrun]
      exact ⟨⟨depth, waiting, hawaits⟩, Nat.succ_le_succ hextra⟩
  | late hwhole =>
      simp only [reduceCtorEq, false_iff]
      rintro ⟨⟨depth, waiting, hawaits⟩, _⟩
      exact hawaits.not_derives hwhole
  | @strange c after _ _ htoken =>
      have hne : c ≠ ':' := by
        rintro rfl
        simp [tokenCharacters] at htoken
      simp [runLength_cons_of_ne hne]
  | short => simp [runLength]

/-- A text that is cut in front of an obstacle is cut at the first place where it cannot be the
beginning of a program. -/
theorem rejection (h : Obstacle tokens rest kind waiting) {position : Position}
    (hspells : Spells tokens before) (hstands : StandsAt before rest position) :
    Rejection before rest kind := by
  have hviable := h.viable.exists_accepted hspells
  have hrefused : rest ≠ [] → ∀ more, ¬ Accepted (before ++ offending rest ++ more) := by
    intro hne more
    exact h.refused hspells (fun hopen => hne (hstands.comment hopen)) hstands.run hne more
  refine ⟨hviable, hrefused, h.eq_nil_iff.mp, ?_, ?_, h.unexpectedCharacter_iff, ?_, ?_⟩
  · rw [h.eq_nil_iff]
    constructor
    · rintro rfl
      simpa using hviable
    · rintro ⟨more, haccepted⟩
      by_contra hne
      obtain ⟨after, hafter⟩ := exists_eq_offending_append rest
      apply hrefused hne (after ++ more)
      rw [hafter, ← List.append_assoc, List.append_assoc _ after] at haccepted
      exact haccepted
  · rw [h.unexpectedToken_iff, hspells.accepted_iff]
  · simp only [h.unboundArgument_iff, hspells.termExpected_iff, exists_and_right]
  · simp only [h.unknownBuiltin_iff, hspells.termExpected_iff]

end Obstacle

/-- A text is rejected at the first place where it cannot be the beginning of a program, and by
then every token in front of it has been stored, except those whose parts are still awaited. -/
theorem parse_error_rejection (text : String) (arena : Program) (error : SyntaxError)
    (hwf : arena.WellFormed) (herror : (parse text arena).result = .error error) :
    ∃ before rest, text.toList = before ++ rest ∧ error.position.offset = utf8Len before ∧
      Rejection before rest error.kind ∧
      ∃ tokens waiting, Spells tokens before ∧ Viable tokens waiting ∧
        (parse text arena).arena.live + waiting = arena.live + tokens.length := by
  obtain ⟨before, rest, tokens, waiting, htext, hstands, hspells, hobstacle, hlive⟩ :=
    exists_obstacle hwf herror
  exact ⟨before, rest, htext, hstands.offset, hobstacle.rejection hspells hstands, tokens, waiting,
    hspells, hobstacle.viable, hlive⟩

/-- Two dots are too many under one abstraction, and so are more. -/
theorem parse_error_rejection_dots :
    (parse ",' ..;" .empty).result = .error ⟨.unboundArgument, ⟨3, 1, 4⟩⟩ ∧
    ∃ before rest, ",' ..;".toList = before ++ rest ∧ 3 = utf8Len before ∧
      Rejection before rest .unboundArgument ∧
      ∃ tokens waiting, Spells tokens before ∧ Viable tokens waiting ∧
        (parse ",' ..;" .empty).arena.live + waiting = 0 + tokens.length := by
  have herror : (parse ",' ..;" .empty).result = .error ⟨.unboundArgument, ⟨3, 1, 4⟩⟩ := by
    decide +kernel
  exact ⟨herror, parse_error_rejection _ _ _ Arena.wellFormed_empty herror⟩

end LambdaMachine.Source
