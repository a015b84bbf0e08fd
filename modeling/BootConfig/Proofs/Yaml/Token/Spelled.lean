import BootConfig.Proofs.Yaml.Token.Flow
import BootConfig.Yaml.Resolve

/-!
# Tokens that spell a tree

A tree without tags whose keys are texts has the tokens of its text: brackets, commas and colons as
themselves, strings as scalars in double quotes, all other scalars as plain ones. A key is
recognised where its string is written on one line and is not too long.
-/

namespace BootConfig

open Json

/-! ## Standard trees -/

namespace Tree

mutual

/-- A tree whose text says what it is: no tags, all keys are texts, and numbers that are read as
what they are. -/
def Standard : Tree → Prop
  | .null | .bool _ | .str _ => True
  | .int n => Yaml.Resolve.fits 64 n = true
  | .float x => x.isFinite = true ∧ Yaml.Resolve.plain? x.text = some (.float x)
  | .seq items => StandardItems items
  | .map entries => StandardEntries entries
  | .tagged _ _ => False

def StandardItems : List Tree → Prop
  | [] => True
  | t :: ts => Standard t ∧ StandardItems ts

def StandardEntries : Entries → Prop
  | [] => True
  | (k, v) :: es => (∃ name, k = .str name) ∧ Standard v ∧ StandardEntries es

end

mutual

/-- All keys that are texts satisfy a predicate. -/
def AllNames (p : String → Prop) : Tree → Prop
  | .seq items => AllNamesItems p items
  | .map entries => AllNamesEntries p entries
  | .tagged _ value => AllNames p value
  | _ => True

def AllNamesItems (p : String → Prop) : List Tree → Prop
  | [] => True
  | t :: ts => AllNames p t ∧ AllNamesItems p ts

def AllNamesEntries (p : String → Prop) : Entries → Prop
  | [] => True
  | (k, v) :: es => (∀ name, k = .str name → p name) ∧ AllNames p v ∧ AllNamesEntries p es

end

end Tree

namespace Yaml

open Yaml.Lex (IsSimple)

/-! ## Folded trees -/

/-- The string as which the text of a string is read. -/
def refoldText? (s : String) : Option String := (refold? s.toList).map String.ofList

mutual

/-- The tree as which the text of a standard tree is read, if all its strings can be read. -/
def reread? : Tree → Option Tree
  | .str s => (refoldText? s).map .str
  | .seq items => (rereadItems? items).map .seq
  | .map entries => (rereadEntries? entries).map .map
  | t => some t

def rereadItems? : List Tree → Option (List Tree)
  | [] => some []
  | t :: ts => (reread? t).bind fun t' => (rereadItems? ts).map (t' :: ·)

def rereadEntries? : Entries → Option Entries
  | [] => some []
  | (k, v) :: es => (reread? k).bind fun k' =>
      (reread? v).bind fun v' => (rereadEntries? es).map ((k', v') :: ·)

end

theorem refoldText?_eq_some {s s' : String} :
    refoldText? s = some s' ↔ ∃ cs, refold? s.toList = some cs ∧ s' = String.ofList cs := by
  rw [refoldText?, Option.map_eq_some_iff]
  exact exists_congr fun _ => and_congr_right' eq_comm

theorem rereadItems?_cons {t : Tree} {ts ts' : List Tree} :
    rereadItems? (t :: ts) = some ts' ↔
      ∃ u us, reread? t = some u ∧ rereadItems? ts = some us ∧ ts' = u :: us := by
  simp only [rereadItems?, Option.bind_eq_some_iff, Option.map_eq_some_iff]
  constructor
  · rintro ⟨u, hu, us, hus, rfl⟩
    exact ⟨u, us, hu, hus, rfl⟩
  · rintro ⟨u, us, hu, hus, rfl⟩
    exact ⟨u, hu, us, hus, rfl⟩

theorem rereadEntries?_cons {name : String} {v : Tree} {es es' : Entries} :
    rereadEntries? ((.str name, v) :: es) = some es' ↔
      ∃ cs u us, refold? name.toList = some cs ∧ reread? v = some u ∧ rereadEntries? es = some us ∧
        es' = (.str (String.ofList cs), u) :: us := by
  simp only [rereadEntries?, reread?, Option.bind_eq_some_iff, Option.map_eq_some_iff,
    refoldText?_eq_some]
  constructor
  · rintro ⟨_, ⟨_, ⟨cs, hcs, rfl⟩, rfl⟩, u, hu, us, hus, rfl⟩
    exact ⟨cs, u, us, hcs, hu, hus, rfl⟩
  · rintro ⟨cs, u, us, hcs, hu, hus, rfl⟩
    exact ⟨_, ⟨_, ⟨cs, hcs, rfl⟩, rfl⟩, u, hu, us, hus, rfl⟩

/-! ## Tokens that spell a tree -/

/-- The token of a key in front of its string. -/
def Keyed (name : String) (keys : List Token) : Prop :=
  (IsSimple name ∧ ∃ k, keys = [k] ∧ k.kind = .key) ∨ ¬IsSimple name ∧ keys = []

/-- The comma in front of all but the first. -/
def Separates (first : Bool) (commas : List Token) : Prop :=
  if first then commas = [] else ∃ t, commas = [t] ∧ t.kind = .flowEntry

/-- A token of a scalar that means a tree. -/
def SpellsScalar (input : ByteArray) (style : Style) (token : Token) (t : Tree) : Prop :=
  ∃ text, token.kind = .scalar style text ∧
    Resolve.scalar input ⟨none, style, text, token.start.offset, token.stop.offset⟩ = .ok t

mutual

/-- The tokens of a written tree that is read as another one. -/
inductive Spells (input : ByteArray) : Tree → Tree → List Token → Prop where
  | scalar {t t' : Tree} {style : Style} {token : Token} (h : SpellsScalar input style token t')
      (ht : ∀ p, t.AllNames p) : Spells input t t' [token]
  | seq {items items' : List Tree} {start stop : Token} {tokens : List Token}
      (ho : start.kind = .flowSequenceStart) (h : SpellsItems input true items items' tokens)
      (hc : stop.kind = .flowSequenceEnd) :
      Spells input (.seq items) (.seq items') (start :: (tokens ++ [stop]))
  | map {entries entries' : Entries} {start stop : Token} {tokens : List Token}
      (ho : start.kind = .flowMappingStart) (h : SpellsEntries input true entries entries' tokens)
      (hc : stop.kind = .flowMappingEnd) :
      Spells input (.map entries) (.map entries') (start :: (tokens ++ [stop]))

inductive SpellsItems (input : ByteArray) : Bool → List Tree → List Tree → List Token → Prop where
  | nil {first : Bool} : SpellsItems input first [] [] []
  | cons {first : Bool} {t t' : Tree} {ts ts' : List Tree} {commas tokens tokens' : List Token}
      (hc : Separates first commas)
      (h : Spells input t t' tokens) (hs : SpellsItems input false ts ts' tokens') :
      SpellsItems input first (t :: ts) (t' :: ts') (commas ++ (tokens ++ tokens'))

inductive SpellsEntries (input : ByteArray) : Bool → Entries → Entries → List Token → Prop where
  | nil {first : Bool} : SpellsEntries input first [] [] []
  | cons {first : Bool} {name name' : String} {v v' : Tree} {es es' : Entries} {key colon : Token}
      {commas keys tokens tokens' : List Token} (hc : Separates first commas) (hk : Keyed name keys)
      (hn : SpellsScalar input .doubleQuoted key (.str name')) (hv : colon.kind = .value)
      (h : Spells input v v' tokens) (hs : SpellsEntries input false es es' tokens') :
      SpellsEntries input first ((.str name, v) :: es) ((.str name', v') :: es')
        (commas ++ (keys ++ key :: colon :: (tokens ++ tokens')))

end

end Yaml

end BootConfig
