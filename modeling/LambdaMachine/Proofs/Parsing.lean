import LambdaMachine.Proofs.Building
import LambdaMachine.Proofs.Scanning
import LambdaMachine.Source.Parser

/-!
# Reading follows the grammar

The tokens of a term are read into a tree of new nodes, which is then given to the frames
that wait, whatever these are (`Derives.exists_readTokens`). Tokens that are read to the
end begin with those of a term (`exists_derives`). So exactly the programs are read, and
as what they are programs of.
-/

namespace LambdaMachine.Source

variable {arena : Program} {frames : List Frame} {depth : Nat} {ending : Ending}
  {stop : Position} {tokens rest : List (Position × Token)}

/-- Go on with what a finished part leads to. -/
def proceed (ending : Ending) (stop : Position) :
    Reading.Completion → List (Position × Token) → Parsed
  | .waiting reading, rest => readTokens ending stop reading rest
  | .root arena root, rest => finish arena root ending stop rest

theorem readTokens_leaf {position : Position} {token : Token} {node : Node Atom} {ref : Ref}
    {arena' : Program} (hmeaning : Reading.meaning depth token = .ok (.leaf node))
    (halloc : arena.alloc node = (ref, arena')) :
    readTokens ending stop ⟨arena, frames, depth⟩ ((position, token) :: rest) =
      proceed ending stop (Reading.complete arena' depth ref frames) rest := by
  simp only [readTokens, hmeaning, halloc]
  cases Reading.complete arena' depth ref frames <;> rfl

theorem exists_readTokens_leaf {token : Token} {atom : Atom} (hwf : arena.WellFormed)
    (hmeaning : Reading.meaning depth token = .ok (.leaf (.leaf atom)))
    (htokens : tokens.map Prod.snd = [token]) (frames : List Frame)
    (rest : List (Position × Token)) :
    ∃ layout arena', layout.term = .leaf atom ∧ arena'.IsTree layout ∧
      Arena.Exchange arena [] layout.refs arena' ∧
      readTokens ending stop ⟨arena, frames, depth⟩ (tokens ++ rest) =
        proceed ending stop (Reading.complete arena' depth layout.root frames) rest := by
  obtain ⟨⟨position, token'⟩, tokens, rfl, rfl, hnil⟩ := List.map_eq_cons_iff.mp htokens
  obtain rfl := List.map_eq_nil_iff.mp hnil
  obtain ⟨ref, arena', halloc, htree, hexchange⟩ := hwf.exists_alloc_leaf atom
  exact ⟨_, arena', rfl, htree, hexchange, readTokens_leaf hmeaning halloc⟩

/-- The tokens of a term are read into a tree, which is given to the waiting frames. -/
theorem Derives.exists_readTokens {term : Term Atom}
    (hderives : Derives depth (tokens.map Prod.snd) term) (hwf : arena.WellFormed)
    (frames : List Frame) (rest : List (Position × Token)) :
    ∃ layout arena', layout.term = term ∧ arena'.IsTree layout ∧
      Arena.Exchange arena [] layout.refs arena' ∧
      readTokens ending stop ⟨arena, frames, depth⟩ (tokens ++ rest) =
        proceed ending stop (Reading.complete arena' depth layout.root frames) rest := by
  generalize hnames : tokens.map Prod.snd = names at hderives
  induction hderives generalizing tokens arena frames rest with
  | unit => exact exists_readTokens_leaf hwf rfl hnames frames rest
  | put => exact exists_readTokens_leaf hwf rfl hnames frames rest
  | get => exact exists_readTokens_leaf hwf rfl hnames frames rest
  | random => exact exists_readTokens_leaf hwf rfl hnames frames rest
  | @var depth index hbound =>
      obtain ⟨⟨position, token⟩, tokens, rfl, rfl, hnil⟩ := List.map_eq_cons_iff.mp hnames
      obtain rfl := List.map_eq_nil_iff.mp hnil
      obtain ⟨ref, arena', halloc, htree, hexchange⟩ := hwf.exists_alloc_var index
      have hmeaning : Reading.meaning depth (.dots index) = .ok (.leaf (.var index)) := by
        simp [Reading.meaning, hbound]
      exact ⟨_, arena', rfl, htree, hexchange, readTokens_leaf hmeaning halloc⟩
  | lam _ ih =>
      obtain ⟨⟨position, token⟩, tokens, rfl, rfl, hbody⟩ := List.map_eq_cons_iff.mp hnames
      obtain ⟨body, arena₁, rfl, htree, hexchange, hread⟩ := ih hwf (.lam :: frames) rest hbody
      obtain ⟨ref, arena₂, halloc, htree', hgrow⟩ :=
        (hexchange.wellFormed hwf).exists_alloc_lam htree
      refine ⟨.lam ref body, arena₂, rfl, htree', hexchange.trans (hgrow.frame body.refs), ?_⟩
      rw [List.cons_append]
      refine hread.trans ?_
      simp only [Reading.complete, halloc]
      rfl
  | app _ _ ihf iha =>
      obtain ⟨⟨position, token⟩, tokens, rfl, rfl, hparts⟩ := List.map_eq_cons_iff.mp hnames
      obtain ⟨tokensf, tokensa, rfl, hfunction, hargument⟩ := List.map_eq_append_iff.mp hparts
      obtain ⟨function, arena₁, rfl, htreef, hexchangef, hreadf⟩ :=
        ihf hwf (.app :: frames) (tokensa ++ rest) hfunction
      have hwf₁ := hexchangef.wellFormed hwf
      obtain ⟨argument, arena₂, rfl, htreea, hexchangea, hreada⟩ :=
        iha hwf₁ (.appTo function.root :: frames) rest hargument
      have hnil := List.disjoint_nil_right function.refs
      obtain ⟨ref, arena₃, halloc, htree, hgrow⟩ := (hexchangea.wellFormed hwf₁).exists_alloc_app
        (hexchangea.isTree htreef hnil) htreea (hexchangea.disjoint htreef.holds hnil)
      refine ⟨.app ref function argument, arena₃, rfl, htree, ?_, ?_⟩
      · have hargument :
            Arena.Exchange arena₁ function.refs (function.refs ++ argument.refs) arena₂ :=
          (hexchangea.frame function.refs).of_mem_iff (fun _ => Iff.rfl) (by simp [or_comm])
        exact (hexchangef.trans hargument).trans (hgrow.frame _)
      · rw [List.cons_append, List.append_assoc]
        refine hreadf.trans (hreada.trans ?_)
        simp only [Reading.complete, halloc]
        rfl

/-- How a term can begin with a token of this meaning. -/
def Begins (depth : Nat) (token : Token) : Reading.Meaning → Prop
  | .abstraction => token = .lam
  | .application => token = .app
  | .leaf _ => ∃ term, Derives depth [token] term

theorem begins_of_meaning {token : Token} {meaning : Reading.Meaning}
    (hmeaning : Reading.meaning depth token = .ok meaning) : Begins depth token meaning := by
  cases token with
  | lam =>
      cases hmeaning
      rfl
  | app =>
      cases hmeaning
      rfl
  | unit =>
      cases hmeaning
      exact ⟨_, .unit⟩
  | dots index =>
      simp only [Reading.meaning] at hmeaning
      split at hmeaning
      next hbound =>
          cases hmeaning
          exact ⟨_, .var hbound⟩
      next => cases hmeaning
  | colons extra =>
      match extra, hmeaning with
      | 0, hmeaning =>
          cases hmeaning
          exact ⟨_, .put⟩
      | 1, hmeaning =>
          cases hmeaning
          exact ⟨_, .get⟩
      | 2, hmeaning =>
          cases hmeaning
          exact ⟨_, .random⟩

/-- Tokens that are read to the end begin with the tokens of a term. -/
theorem exists_derives (hwf : arena.WellFormed) {root : Ref}
    (hok : (readTokens ending stop ⟨arena, frames, depth⟩ tokens).result = .ok root) :
    ∃ first rest term, tokens = first ++ rest ∧ Derives depth (first.map Prod.snd) term := by
  -- The tokens behind a function part are found by reading it, so the induction is on how many
  -- tokens there are.
  generalize hlength : tokens.length = n
  induction n using Nat.strongRecOn generalizing tokens arena frames depth with
  | ind n ih =>
      cases tokens with
      | nil => cases ending <;> cases hok
      | cons head tokens =>
          obtain ⟨position, token⟩ := head
          rw [List.length_cons] at hlength
          cases hmeaning : Reading.meaning depth token with
          | error kind =>
              simp only [readTokens, hmeaning] at hok
              cases hok
          | ok meaning =>
              cases meaning with
              | abstraction =>
                  obtain rfl : token = .lam := begins_of_meaning hmeaning
                  replace hok : (readTokens ending stop ⟨arena, .lam :: frames, depth + 1⟩
                    tokens).result = .ok root := hok
                  obtain ⟨first, rest, term, rfl, hderives⟩ := ih _ (by omega) hwf hok rfl
                  exact ⟨(position, .lam) :: first, rest, _, rfl, .lam hderives⟩
              | application =>
                  obtain rfl : token = .app := begins_of_meaning hmeaning
                  replace hok : (readTokens ending stop ⟨arena, .app :: frames, depth⟩
                    tokens).result = .ok root := hok
                  obtain ⟨first, rest, function, rfl, hfunction⟩ := ih _ (by omega) hwf hok rfl
                  obtain ⟨layout, arena₁, _, _, hexchange, hread⟩ :=
                    hfunction.exists_readTokens hwf (.app :: frames) rest
                  have hok' := (congrArg Parsed.result hread).symm.trans hok
                  rw [List.length_append] at hlength
                  obtain ⟨second, rest, argument, rfl, hargument⟩ :=
                    ih _ (by omega) (hexchange.wellFormed hwf) hok' rfl
                  refine ⟨(position, .app) :: (first ++ second), rest, .app function argument,
                    by simp, ?_⟩
                  rw [List.map_cons, List.map_append]
                  exact .app hfunction hargument
              | leaf node =>
                  obtain ⟨term, hderives⟩ := begins_of_meaning hmeaning
                  exact ⟨[(position, token)], tokens, term, rfl, hderives⟩

theorem finish_eq_ok_iff {root root' : Ref} :
    (finish arena root ending stop rest).result = .ok root' ↔
      rest = [] ∧ ending = .endOfText ∧ root' = root := by
  cases rest with
  | cons token rest => simp [finish]
  | nil => cases ending <;> simp [finish, eq_comm]

/-- The tokens of a program are read into a tree of its term. -/
theorem IsProgram.exists_parse {text : String} {tokens : List Token} {term : Term Atom}
    (hwf : arena.WellFormed) (hspells : Spells tokens text.toList)
    (hderives : Derives 0 tokens term) :
    ∃ layout, layout.term = term ∧ (parse text arena).result = .ok layout.root ∧
      (parse text arena).arena.IsTree layout ∧
      Arena.Exchange arena [] layout.refs (parse text arena).arena := by
  obtain ⟨hending, rfl⟩ := (scan_spells_iff _ _).mpr hspells
  obtain ⟨layout, arena', hterm, htree, hexchange, hread⟩ :=
    hderives.exists_readTokens hwf [] []
  have hparse : parse text arena = ⟨arena', .ok layout.root⟩ := by
    rw [List.append_nil] at hread
    exact hread.trans (by rw [hending]; rfl)
  rw [hparse]
  exact ⟨layout, hterm, rfl, htree, hexchange⟩

/-- A text is a program of one term at most. -/
theorem IsProgram.det {text : List Char} {term term' : Term Atom} (hleft : IsProgram text term)
    (hright : IsProgram text term') : term = term' := by
  obtain ⟨tokens, hspells, hderives⟩ := hleft
  obtain ⟨tokens', hspells', hderives'⟩ := hright
  obtain ⟨_, rfl⟩ := (scan_spells_iff _ _).mpr hspells
  obtain ⟨_, rfl⟩ := (scan_spells_iff _ _).mpr hspells'
  have hsame :
      ((scan text).tokens.map Prod.snd) ++ [] = (scan text).tokens.map Prod.snd ++ [] := rfl
  exact (hderives.det hderives' hsame).1

/-- A text that is accepted is a program. -/
theorem exists_isProgram {text : String} (hwf : arena.WellFormed) {root : Ref}
    (hok : (parse text arena).result = .ok root) :
    ∃ tokens term, Spells tokens text.toList ∧ Derives 0 tokens term := by
  obtain ⟨first, rest, term, htokens, hderives⟩ := exists_derives hwf hok
  obtain ⟨layout, arena', _, _, _, hread⟩ := hderives.exists_readTokens hwf [] rest
  have hparse : parse text arena = readTokens (scan text.toList).ending (scan text.toList).stop
      ⟨arena, [], 0⟩ (first ++ rest) := by
    rw [← htokens]
    rfl
  rw [hparse, hread] at hok
  have hfinish : (finish arena' layout.root (scan text.toList).ending (scan text.toList).stop
    rest).result = .ok root := hok
  obtain ⟨rfl, hending, _⟩ := finish_eq_ok_iff.mp hfinish
  rw [List.append_nil] at htokens
  subst htokens
  exact ⟨_, term, (scan_spells_iff _ _).mp ⟨hending, rfl⟩, hderives⟩

end LambdaMachine.Source
