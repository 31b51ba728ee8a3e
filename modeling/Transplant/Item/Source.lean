import Transplant.Body.Build
import Transplant.Item.Outline
import Transplant.Java.Source

/-! The classes of a source text with the tables of their method bodies. All declarations of the
file are known before the names in a body are resolved. -/
namespace Transplant

open Java (Block CompilationUnit)

def Method.resolved (outline : ItemTree Block) (method : Method Block) : Method Body :=
  method.mapBody (Body.ofBlock ⟨outline,method.owner,method.params⟩)

def Class.resolved (outline : ItemTree Block) (item : Class Block) : Class Body :=
  { item with methods := item.methods.map (Method.resolved outline) }

namespace ItemTree

def ofUnit (unit : CompilationUnit) : ItemTree Body :=
  let outline := outline unit
  { outline with classes := outline.classes.map (Class.resolved outline) }

def ofText (text : Text) : ItemTree Body := ofUnit (Java.parse text)

end ItemTree
end Transplant
