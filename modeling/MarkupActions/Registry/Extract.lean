import MarkupActions.Inert
import MarkupActions.Registry.Basic
import MarkupActions.Registry.Rename

/-!
# Extraction

How a registry reads a text. The text is mended, its names are made canonical, and what is inert is
taken out. Each family that bears content then reads its own blocks, the blocks of the others being
removed. When all of them are cut out, the other families read what remains, one after the other.
-/

namespace MarkupActions.Registry

/-- A text mended by one family. Closed blocks of other families that bear content are left alone.
-/
def mendWith (table : SpellingTable) (s : Text) (family : Family) : Text :=
  let foreign (block : Block) : Bool :=
    block.isClosed && !(table.canonical? block.name).any family.owns
  if family.repairs.isEmpty then s
  else
    let layout := (table.anySpellingMatcher.layout s).select foreign Block.text
    Repair.applyOutside family.repairs Block.text layout

def mend (registry : Registry) (s : Text) : Text :=
  registry.families.foldl (mendWith registry.table) s

def normalize (registry : Registry) (s : Text) : Text := registry.table.rename s

def working (registry : Registry) (s : Text) : Text :=
  Inert.strip registry.table.guardedMatcher true (registry.normalize (registry.mend s))

/-- The text that a family reads which bears content: without such blocks of other families. -/
def view (layout : Layout Block) (family : Family) : Text :=
  (layout.select (fun block => !family.owns block.name) Block.text).gaps

/-- Each family reads what those before it have left. -/
def readInTurn (screening : Screening) : List Family → Text → List Action
  | [], _ => []
  | family :: families, s =>
    family.extract screening s ++ readInTurn screening families (family.retire s)

def readWorking (registry : Registry) (screening : Screening) (s : Text) : List Action :=
  let layout := registry.table.contentMatcher.layout s
  let remaining := registry.contentFamilies.foldl (fun s family => family.retire s) layout.gaps
  registry.contentFamilies.flatMap (fun family => family.extract screening (view layout family)) ++
    readInTurn screening registry.structuralFamilies remaining

def extract (registry : Registry) (screening : Screening) (s : Text) : List Action :=
  registry.readWorking screening (registry.working s)

end MarkupActions.Registry
