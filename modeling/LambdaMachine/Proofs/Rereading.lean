import LambdaMachine.Proofs.Links
import LambdaMachine.Proofs.Listing
import LambdaMachine.Proofs.Parsing

/-!
# Reading a listing back

A listing that shows tokens only is a program of the term that it lists, once the brackets
around the marked application are taken for blanks. Without a mark there are no brackets, so
listings are the same just for the same term. With one, what stands between the brackets is
the listing of the marked application alone (`IsTree.listing_marked`).
-/

namespace LambdaMachine

open Source (Spells EndsBefore Derives IsProgram)

/-- No output waits for the unit in this term, so that tokens can show all of it. -/
def Term.Writable : Term Atom → Prop
  | .lam body => body.Writable
  | .app function argument => function.Writable ∧ argument.Writable
  | .var _ => True
  | .leaf atom => ∀ number, atom ≠ .pending number

/-- In whatever arena this text is read, it is accepted as this term. -/
def Source.ReadsAs (text : String) (term : Term Atom) : Prop :=
  ∀ arena : Program, arena.WellFormed → ∃ layout,
    (Source.parse text arena).result = .ok layout.root ∧
      (Source.parse text arena).arena.IsTree layout ∧ layout.term = term

/-- A program is read, and as what it is a program of. -/
theorem Source.IsProgram.readsAs {text : String} {term : Term Atom}
    (h : IsProgram text.toList term) : ReadsAs text term := by
  obtain ⟨tokens, hspells, hderives⟩ := h
  intro arena hwf
  obtain ⟨layout, hterm, hok, htree, _⟩ := IsProgram.exists_parse hwf hspells hderives
  exact ⟨layout, hok, htree, hterm⟩

namespace Listing

/-! ### Pieces as characters -/

/-- The characters of a piece. -/
def Piece.chars (piece : Piece) : List Char :=
  (piece.write "").toList

/-- The characters of pieces behind a last piece, if any. -/
def spread (last : Option Piece) : List Piece → List Char
  | [] => []
  | piece :: pieces =>
      (if last.any (·.merges piece) then [' '] else []) ++ piece.chars ++ spread (some piece) pieces

/-- The token of a piece. -/
def Piece.token? : Piece → Option Token
  | token word => some word
  | _ => none

@[simp] theorem Piece.token?_token (word : Token) : (Piece.token word).token? = some word := rfl
@[simp] theorem Piece.token?_opening : Piece.opening.token? = none := rfl
@[simp] theorem Piece.token?_closing : Piece.closing.token? = none := rfl

/-- Whether a piece is a token or a bracket. -/
def Piece.Readable : Piece → Prop
  | .pending .. => False
  | _ => True

/-- A bracket taken for a blank, or another character. -/
def blank (c : Char) : Char :=
  if c = '[' ∨ c = ']' then ' ' else c

/-- The text with its brackets taken for blanks. -/
def unbracket (text : String) : String :=
  text.map blank

theorem toList_pushn (text : String) (c : Char) (n : Nat) :
    (text.pushn c n).toList = text.toList ++ List.replicate n c := by
  rw [String.pushn_eq_repeat_push]
  induction n with
  | zero => simp [Nat.repeat]
  | succ n ih => simp [Nat.repeat, ih, List.replicate_succ']

theorem toList_write (text : String) (piece : Piece) :
    (piece.write text).toList = text.toList ++ piece.chars := by
  cases piece with
  | token token => cases token <;> simp [Piece.write, Piece.chars, toList_pushn]
  | opening => simp [Piece.write, Piece.chars]
  | closing => simp [Piece.write, Piece.chars]
  | pending number => cases number <;> simp [Piece.write, Piece.chars]

theorem toList_writeAll (text : String) (last : Option Piece) (pieces : List Piece) :
    (writeAll text last pieces).toList = text.toList ++ spread last pieces := by
  induction pieces generalizing text last with
  | nil => simp [writeAll, spread]
  | cons piece pieces ih =>
      simp only [writeAll, spread, ih, toList_write]
      split <;> simp

theorem chars_token (token : Token) : (Piece.token token).chars = token.chars := by
  cases token <;> simp [Piece.chars, Piece.write, Token.chars, toList_pushn]

theorem map_blank_chars (token : Token) : token.chars.map blank = token.chars := by
  cases token <;> simp [Token.chars, blank]

theorem notMem_chars {c : Char} (hc : c = '[' ∨ c = ']') (token : Token) : c ∉ token.chars := by
  obtain rfl | rfl := hc <;> cases token <;> simp [Token.chars]

@[simp]
theorem spread_opening (last : Option Piece) (pieces : List Piece) :
    spread last (.opening :: pieces) = '[' :: spread (some .opening) pieces := by
  cases last with
  | none => rfl
  | some piece =>
      cases piece with
      | token token => cases token <;> rfl
      | _ => rfl

@[simp]
theorem spread_closing (last : Option Piece) (pieces : List Piece) :
    spread last (.closing :: pieces) = ']' :: spread (some .closing) pieces := by
  cases last with
  | none => rfl
  | some piece =>
      cases piece with
      | token token => cases token <;> rfl
      | _ => rfl

/-- Nothing merges with a bracket before it. -/
theorem spread_some_opening (pieces : List Piece) :
    spread (some .opening) pieces = spread none pieces := by
  cases pieces <;> rfl

/-- A bracket cuts the characters in two. -/
theorem spread_append_opening (last : Option Piece) (pieces pieces' : List Piece) :
    spread last (pieces ++ .opening :: pieces') =
      spread last pieces ++ '[' :: spread none pieces' := by
  induction pieces generalizing last with
  | nil => rw [List.nil_append, spread_opening, spread_some_opening]; rfl
  | cons piece pieces ih => simp only [List.cons_append, spread, ih, List.append_assoc]

theorem spread_append_closing (last : Option Piece) (pieces pieces' : List Piece) :
    spread last (pieces ++ .closing :: pieces') =
      spread last pieces ++ ']' :: spread (some .closing) pieces' := by
  induction pieces generalizing last with
  | nil => rw [List.nil_append, spread_closing]; rfl
  | cons piece pieces ih => simp only [List.cons_append, spread, ih, List.append_assoc]

/-- Tokens are listed without brackets. -/
theorem notMem_spread {c : Char} (hc : c = '[' ∨ c = ']') (last : Option Piece)
    {pieces : List Piece} (htokens : ∀ piece ∈ pieces, ∃ token, piece = .token token) :
    c ∉ spread last pieces := by
  induction pieces generalizing last with
  | nil => exact List.not_mem_nil
  | cons piece pieces ih =>
      obtain ⟨⟨token, rfl⟩, hrest⟩ := List.forall_mem_cons.mp htokens
      have hblank : c ∉ [' '] := by obtain rfl | rfl := hc <;> decide
      simp only [spread, chars_token, List.mem_append, not_or]
      refine ⟨⟨?_, notMem_chars hc token⟩, ih _ hrest⟩
      split
      · exact hblank
      · exact List.not_mem_nil

/-- Without brackets nothing is taken for a blank. -/
theorem map_blank_of_notMem {text : List Char} (hopening : '[' ∉ text) (hclosing : ']' ∉ text) :
    text.map blank = text := by
  have hsame : ∀ c ∈ text, blank c = id c := fun c hmem =>
    if_neg fun hbracket => hbracket.elim (fun h => hopening (h ▸ hmem)) fun h => hclosing (h ▸ hmem)
  rw [List.map_congr_left hsame, List.map_id]

/-! ### Pieces read as tokens -/

theorem spells_cons_blank {tokens : List Token} {text : List Char} (h : Spells tokens text) :
    Spells tokens (' ' :: text) := by
  cases h with
  | nil hgap => exact .nil (hgap.cons_blank (.inl rfl))
  | @cons gap token text tokens hgap hends htext =>
      have hblank : Source.Trivia (' ' :: gap) := .blank (.inl rfl) hgap
      exact .cons hblank hends htext

/-- A token ends where the pieces behind it begin, since a blank comes first if they would
merge. -/
theorem endsBefore_spread (token : Token) {pieces : List Piece}
    (hreadable : ∀ piece ∈ pieces, piece.Readable) :
    EndsBefore ((spread (some (.token token)) pieces).map blank) token := by
  cases pieces with
  | nil => cases token <;> simp [EndsBefore, spread]
  | cons piece pieces =>
      cases piece with
      | token token' =>
          cases token <;> cases token' <;>
            simp [EndsBefore, spread, Piece.merges, chars_token, Token.chars, blank,
              List.replicate_succ]
      | opening => cases token <;> simp [EndsBefore, blank]
      | closing => cases token <;> simp [EndsBefore, blank]
      | pending number => exact (hreadable _ List.mem_cons_self).elim

/-- Pieces spell their tokens, with blanks for the brackets. -/
theorem spells_spread (last : Option Piece) {pieces : List Piece}
    (hreadable : ∀ piece ∈ pieces, piece.Readable) :
    Spells (pieces.filterMap Piece.token?) ((spread last pieces).map blank) := by
  induction pieces generalizing last with
  | nil => exact .nil (.trivia .nil)
  | cons piece pieces ih =>
      obtain ⟨hpiece, hrest⟩ := List.forall_mem_cons.mp hreadable
      cases piece with
      | token token =>
          simp only [spread, List.map_append, chars_token, map_blank_chars]
          refine .cons ?_ (endsBefore_spread token hrest) (ih _ hrest)
          split
          · exact .blank (.inl rfl) .nil
          · exact .nil
      | opening =>
          rw [spread_opening, List.map_cons]
          exact spells_cons_blank (ih _ hrest)
      | closing =>
          rw [spread_closing, List.map_cons]
          exact spells_cons_blank (ih _ hrest)
      | pending number => exact hpiece.elim

end Listing

namespace Layout

open Listing

variable {layout layout' part : Layout Atom} {depth : Nat}

/-! ### The pieces of a term -/

theorem readable_of_mem_pieces (hwritable : layout.term.Writable) (marked : Option Ref) :
    ∀ piece ∈ layout.pieces marked, piece.Readable := by
  induction layout with
  | lam ref body ih => exact List.forall_mem_cons.mpr ⟨trivial, ih hwritable⟩
  | app ref function argument ihf iha =>
      have hfunction := ihf hwritable.1
      have hargument := iha hwritable.2
      unfold pieces
      split <;> simp only [List.forall_mem_cons, List.forall_mem_append]
      · exact ⟨trivial, trivial, ⟨hfunction, hargument⟩, trivial, List.forall_mem_nil _⟩
      · exact ⟨trivial, hfunction, hargument⟩
  | var ref index => simp [pieces, Piece.Readable]
  | leaf ref atom =>
      cases atom with
      | pending number => exact absurd rfl (hwritable number)
      | _ => simp [pieces, atomPiece, Piece.Readable]

/-- Without a mark, all pieces are tokens. -/
theorem token_of_mem_pieces (hwritable : layout.term.Writable) :
    ∀ piece ∈ layout.pieces none, ∃ token, piece = .token token := by
  induction layout with
  | lam ref body ih => exact List.forall_mem_cons.mpr ⟨⟨_, rfl⟩, ih hwritable⟩
  | app ref function argument ihf iha =>
      exact List.forall_mem_cons.mpr
        ⟨⟨_, rfl⟩, List.forall_mem_append.mpr ⟨ihf hwritable.1, iha hwritable.2⟩⟩
  | var ref index => simp [pieces]
  | leaf ref atom =>
      cases atom with
      | pending number => exact absurd rfl (hwritable number)
      | _ => simp [pieces, atomPiece]

/-- The tokens among the pieces are those of the term, whatever is marked. -/
theorem derives_pieces {depth : Nat} (hclosed : layout.term.ClosedUnder depth)
    (hwritable : layout.term.Writable) (marked : Option Ref) :
    Derives depth ((layout.pieces marked).filterMap Piece.token?) layout.term := by
  induction layout generalizing depth with
  | lam ref body ih => exact .lam (ih hclosed hwritable)
  | app ref function argument ihf iha =>
      have happ := Derives.app (ihf hclosed.1 hwritable.1) (iha hclosed.2 hwritable.2)
      unfold pieces
      split
      · simpa [List.filterMap_cons, List.filterMap_append, term] using happ
      · simpa [List.filterMap_cons, List.filterMap_append, term] using happ
  | var ref index => exact .var hclosed
  | leaf ref atom =>
      cases atom with
      | unit => exact .unit
      | put => exact .put
      | get => exact .get
      | random => exact .random
      | pending number => exact absurd rfl (hwritable number)

/-- Without a mark, the pieces are those of the term. -/
theorem pieces_congr (hterm : layout.term = layout'.term) :
    layout.pieces none = layout'.pieces none := by
  induction layout generalizing layout' with
  | lam ref body ih =>
      cases layout' <;> simp only [term, Term.lam.injEq, reduceCtorEq] at hterm
      simp only [pieces, ih hterm]
  | app ref function argument ihf iha =>
      cases layout' <;> simp only [term, Term.app.injEq, reduceCtorEq] at hterm
      simp only [pieces, ihf hterm.1, iha hterm.2, reduceCtorEq, if_false]
  | var ref index =>
      cases layout' <;> simp only [term, Term.var.injEq, reduceCtorEq] at hterm
      simp only [pieces, hterm]
  | leaf ref atom =>
      cases layout' <;> simp only [term, Term.leaf.injEq, reduceCtorEq] at hterm
      simp only [pieces, hterm]

/-- A mark that is not in a layout shows nothing. -/
theorem pieces_of_notMem {marked : Ref} (hmarked : marked ∉ layout.refs) :
    layout.pieces (some marked) = layout.pieces none := by
  induction layout with
  | lam ref body ih =>
      simp only [refs, List.mem_cons, not_or] at hmarked
      simp only [pieces, ih hmarked.2]
  | app ref function argument ihf iha =>
      simp only [refs, List.mem_cons, List.mem_append, not_or] at hmarked
      simp only [pieces, ihf hmarked.2.1, iha hmarked.2.2, Option.some.injEq, hmarked.1,
        reduceCtorEq]
  | var ref index => rfl
  | leaf ref atom => rfl

theorem Part.writable (hpart : layout.Part depth part) (hwritable : layout.term.Writable) :
    part.term.Writable :=
  hpart.of_term (fun _ h => h) (fun _ _ h => h) hwritable

end Layout

namespace Arena

open Listing

variable {arena : Program} {layout part : Layout Atom} {depth : Nat}

/-- A mark on the root puts the whole tree in brackets. -/
theorem IsTree.pieces_root (htree : arena.IsTree layout) (happ : layout.term.isApp = true) :
    layout.pieces (some layout.root) = .opening :: (layout.pieces none ++ [.closing]) := by
  obtain ⟨ref, function, argument, rfl⟩ := Layout.exists_of_isApp happ
  obtain ⟨_, ⟨hfunction, hargument⟩, _, _, _⟩ := isTree_app.mp htree
  simp only [Layout.root, Layout.pieces, if_true, Layout.pieces_of_notMem hfunction,
    Layout.pieces_of_notMem hargument, reduceCtorEq, if_false, List.cons_append]

/-- A mark within a part shows there only, and around the part there are tokens. -/
theorem IsTree.exists_pieces (htree : arena.IsTree layout) (hwritable : layout.term.Writable)
    (hpart : layout.Part depth part) {marked : Ref} (hmarked : marked ∈ part.refs) :
    ∃ before after, (∀ piece ∈ before, ∃ token, piece = Piece.token token) ∧
      (∀ piece ∈ after, ∃ token, piece = Piece.token token) ∧
      layout.pieces (some marked) = before ++ (part.pieces (some marked) ++ after) := by
  induction hpart with
  | whole => exact ⟨[], [], List.forall_mem_nil _, List.forall_mem_nil _, by simp⟩
  | body hpart ih =>
      obtain ⟨before, after, hbefore, hafter, hpieces⟩ := ih (List.mem_cons_of_mem _ hmarked)
      refine ⟨before ++ [.token .lam], after,
        List.forall_mem_append.mpr ⟨hbefore, List.forall_mem_singleton.mpr ⟨_, rfl⟩⟩, hafter, ?_⟩
      rw [hpieces, Layout.pieces]
      simp
  | @function depth ref function argument hpart ih =>
      obtain ⟨_, ⟨hnot, _⟩, hdisjoint, _, _⟩ := isTree_app.mp (htree.of_part hpart)
      have hne : some marked ≠ some ref := fun h => hnot (Option.some.inj h ▸ hmarked)
      have hargument := Layout.token_of_mem_pieces (hpart.writable hwritable).2
      obtain ⟨before, after, hbefore, hafter, hpieces⟩ :=
        ih (List.mem_cons_of_mem _ (List.mem_append_left _ hmarked))
      refine ⟨before ++ [.token .app], argument.pieces none ++ after,
        List.forall_mem_append.mpr ⟨hbefore, List.forall_mem_singleton.mpr ⟨_, rfl⟩⟩,
        List.forall_mem_append.mpr ⟨hargument, hafter⟩, ?_⟩
      rw [hpieces, Layout.pieces, if_neg hne,
        Layout.pieces_of_notMem (fun hmem => hdisjoint hmarked hmem)]
      simp
  | @argument depth ref function argument hpart ih =>
      obtain ⟨_, ⟨_, hnot⟩, hdisjoint, _, _⟩ := isTree_app.mp (htree.of_part hpart)
      have hne : some marked ≠ some ref := fun h => hnot (Option.some.inj h ▸ hmarked)
      have hfunction := Layout.token_of_mem_pieces (hpart.writable hwritable).1
      obtain ⟨before, after, hbefore, hafter, hpieces⟩ :=
        ih (List.mem_cons_of_mem _ (List.mem_append_right _ hmarked))
      refine ⟨before ++ .token .app :: function.pieces none, after,
        List.forall_mem_append.mpr ⟨hbefore, List.forall_mem_cons.mpr ⟨⟨_, rfl⟩, hfunction⟩⟩,
        hafter, ?_⟩
      rw [hpieces, Layout.pieces, if_neg hne,
        Layout.pieces_of_notMem (fun hmem => hdisjoint hmem hmarked)]
      simp

/-! ### Listings -/

/-- A listing is a program of the term, with its brackets taken for blanks. -/
theorem isProgram_listing (hclosed : layout.term.Closed) (hwritable : layout.term.Writable)
    (marked : Option Ref) :
    IsProgram (unbracket (writeAll "" none (layout.pieces marked))).toList layout.term := by
  rw [unbracket, String.toList_map, toList_writeAll]
  exact ⟨_, spells_spread none (layout.readable_of_mem_pieces hwritable marked),
    Layout.derives_pieces hclosed hwritable marked⟩

/-- Without a mark there are no brackets. -/
theorem notMem_listing {c : Char} (hc : c = '[' ∨ c = ']') (hwritable : layout.term.Writable) :
    c ∉ (writeAll "" none (layout.pieces none)).toList := by
  rw [toList_writeAll]
  exact notMem_spread hc none (Layout.token_of_mem_pieces hwritable)

theorem unbracket_listing (hwritable : layout.term.Writable) :
    unbracket (writeAll "" none (layout.pieces none)) = writeAll "" none (layout.pieces none) := by
  rw [← String.toList_inj, unbracket, String.toList_map]
  exact map_blank_of_notMem (notMem_listing (.inl rfl) hwritable)
    (notMem_listing (.inr rfl) hwritable)

/-- A listing without a mark is a program as it stands. -/
theorem isProgram_plain_listing (hclosed : layout.term.Closed)
    (hwritable : layout.term.Writable) :
    IsProgram (writeAll "" none (layout.pieces none)).toList layout.term := by
  have hprogram := isProgram_listing hclosed hwritable none
  rwa [unbracket_listing hwritable] at hprogram

/-- Listings without a mark are the same just for the same term. -/
theorem listing_eq_iff {layout' : Layout Atom} (hclosed : layout.term.Closed)
    (hwritable : layout.term.Writable) (hclosed' : layout'.term.Closed)
    (hwritable' : layout'.term.Writable) :
    writeAll "" none (layout.pieces none) = writeAll "" none (layout'.pieces none) ↔
      layout.term = layout'.term := by
  constructor
  · intro hsame
    have hprogram := isProgram_plain_listing hclosed hwritable
    rw [hsame] at hprogram
    exact hprogram.det (isProgram_plain_listing hclosed' hwritable')
  · intro hterm
    rw [Layout.pieces_congr hterm]

/-- Between the brackets is the listing of the marked application. -/
theorem IsTree.listing_marked (htree : arena.IsTree layout) (hwritable : layout.term.Writable)
    (hpart : layout.Part depth part) (happ : part.term.isApp = true) :
    ∃ before after, (∀ c, c = '[' ∨ c = ']' → c ∉ before ∧ c ∉ after) ∧
      (writeAll "" none (layout.pieces (some part.root))).toList =
        before ++ '[' :: ((writeAll "" none (part.pieces none)).toList ++ ']' :: after) := by
  obtain ⟨before, after, hbefore, hafter, hpieces⟩ :=
    htree.exists_pieces hwritable hpart part.root_mem_refs
  refine ⟨spread none before, spread (some .closing) after,
    fun c hc => ⟨notMem_spread hc _ hbefore, notMem_spread hc _ hafter⟩, ?_⟩
  simp only [toList_writeAll, hpieces, (htree.of_part hpart).pieces_root happ, List.cons_append,
    List.append_assoc, List.nil_append, spread_append_opening, spread_append_closing,
    String.toList_empty]

/-- The listing of a closed term in which no output waits reads as this term, if the brackets
around the marked application are taken for blanks. Without a mark there are no brackets, and
listings are the same just for the same term. With a mark there is one pair of brackets, and
what is between them is the listing of the marked application alone. -/
theorem listing_rereads (htree : arena.IsTree layout) (hclosed : layout.term.Closed)
    (hwritable : layout.term.Writable) :
    (∀ marked : Option Ref, ∃ text,
      Finishes (fun fuel => arena.listing fuel (some layout.root) marked) text ∧
        Source.ReadsAs (unbracket text) layout.term) ∧
    (∃ text, Finishes (fun fuel => arena.listing fuel (some layout.root) none) text ∧
      '[' ∉ text.toList ∧ ']' ∉ text.toList ∧ Source.ReadsAs text layout.term) ∧
    (∀ (arena' : Program) (layout' : Layout Atom), arena'.IsTree layout' →
      layout'.term.Closed → layout'.term.Writable →
      ((∃ text, Finishes (fun fuel => arena.listing fuel (some layout.root) none) text ∧
          Finishes (fun fuel => arena'.listing fuel (some layout'.root) none) text) ↔
        layout.term = layout'.term)) ∧
    ∀ (depth : Nat) (part : Layout Atom), layout.Part depth part → part.term.isApp = true →
      ∃ before inner after,
        Finishes (fun fuel => arena.listing fuel (some layout.root) (some part.root))
          (String.ofList (before ++ '[' :: (inner ++ ']' :: after))) ∧
        Finishes (fun fuel => arena.listing fuel (some part.root) none) (String.ofList inner) ∧
        ∀ c, c = '[' ∨ c = ']' → c ∉ before ∧ c ∉ inner ∧ c ∉ after := by
  have hlisting := htree.holds.finishes_listing
  refine ⟨fun marked => ⟨_, hlisting marked, (isProgram_listing hclosed hwritable marked).readsAs⟩,
    ⟨_, hlisting none, notMem_listing (.inl rfl) hwritable, notMem_listing (.inr rfl) hwritable,
      (isProgram_plain_listing hclosed hwritable).readsAs⟩, ?_, ?_⟩
  · intro arena' layout' htree' hclosed' hwritable'
    rw [← listing_eq_iff hclosed hwritable hclosed' hwritable']
    constructor
    · rintro ⟨text, hleft, hright⟩
      exact ((hlisting none).det hleft).trans (hright.det (htree'.holds.finishes_listing none))
    · intro hsame
      exact ⟨_, hlisting none, hsame ▸ htree'.holds.finishes_listing none⟩
  · intro depth part hpart happ
    obtain ⟨before, after, hbrackets, htext⟩ := htree.listing_marked hwritable hpart happ
    refine ⟨before, (writeAll "" none (part.pieces none)).toList, after, ?_, ?_, fun c hc =>
      ⟨(hbrackets c hc).1, notMem_listing hc (hpart.writable hwritable), (hbrackets c hc).2⟩⟩
    · rw [← htext, String.ofList_toList]
      exact hlisting _
    · rw [String.ofList_toList]
      exact (htree.holds.of_part hpart).finishes_listing none

/-- Two variables are listed apart from each other, and read back. -/
theorem self_application_rereads : ∃ text,
    Finishes (fun fuel => (⟨#[some (.lam 1), some (.app 2 3), some (.var 0), some (.var 0)], []⟩ :
      Program).listing fuel (some 0) none) text ∧
      '[' ∉ text.toList ∧ ']' ∉ text.toList ∧
      Source.ReadsAs text (.lam (.app (.var 0) (.var 0))) := by
  have htree : (⟨#[some (.lam 1), some (.app 2 3), some (.var 0), some (.var 0)], []⟩ :
      Program).IsTree (.lam 0 (.app 1 (.var 2 0) (.var 3 0))) :=
    ⟨⟨rfl, rfl, rfl, rfl⟩, by simp [Layout.refs]⟩
  exact (listing_rereads htree ⟨Nat.one_pos, Nat.one_pos⟩ ⟨trivial, trivial⟩).2.1

end Arena

end LambdaMachine
