import TraitLift.Node.Block
import TraitLift.Print.Member

/-!
Blocks and trait declarations as text: the header on one line, one member after the other with a
tab in front of each of its lines, attributes on lines of their own. Texts that were kept as written
come out as written.
-/

namespace TraitLift

/-- What stands in front of every line of a body. -/
def indent : Doc := Doc.str "\t"

/-- The lines of a body. -/
def bodyLines (innerAttrs : List Attribute) (items : List Member) : List Doc :=
  (innerAttrs.map (fun a => Doc.str a.text) ++ items.flatMap Member.lines).map (indent ++ ·)

/-- Attributes, header and body, a line each; an empty body stays on the header's line. -/
def wrapDoc (header : Doc) (attrs : List Attribute) (body : List Doc) : Doc :=
  let block := if body.isEmpty then [header ++ Doc.str " \x7b\x7d"]
    else [header ++ Doc.str " \x7b"] ++ body ++ [Doc.str "\x7d"]
  Doc.sepBy "\n" (attrs.map (fun a => Doc.str a.text) ++ block)

namespace TraitDecl

/-- The line up to the body. -/
def header (d : TraitDecl) : Doc :=
  Doc.str d.vis.text ++ Doc.strIf d.unsafety "unsafe " ++ Doc.str ("trait " ++ d.name)
    ++ paramsDoc d.generics.params ++ clauseDoc d.generics.clause

/-- A trait declaration. -/
def doc (d : TraitDecl) : Doc := wrapDoc d.header d.attrs (bodyLines d.innerAttrs d.items)

/-- A trait declaration as text. -/
def render (d : TraitDecl) : Except Misplaced String := d.doc.text

end TraitDecl

namespace TraitRef

/-- The trait of a block. -/
def doc (r : TraitRef) : Doc := Doc.strIf r.negative "!" ++ r.path.doc

end TraitRef

namespace ImplBlock

/-- The line up to the body. -/
def header (b : ImplBlock) : Doc :=
  Doc.strIf b.defaultness "default " ++ Doc.strIf b.unsafety "unsafe " ++ Doc.str "impl"
    ++ paramsDoc b.generics.params ++ Doc.str " "
    ++ (match b.traitRef with
        | some r => r.doc ++ Doc.str " for "
        | none => [])
    ++ b.selfTy.doc ++ clauseDoc b.generics.clause

/-- A block. -/
def doc (b : ImplBlock) : Doc := wrapDoc b.header b.attrs (bodyLines b.innerAttrs b.items)

/-- A block as text. -/
def render (b : ImplBlock) : Except Misplaced String := b.doc.text

end ImplBlock

namespace Item

/-- An item. -/
def doc : Item → Doc
  | .decl d => d.doc
  | .block b => b.doc
  | .misplaced k => Doc.bad .item k

end Item

/-- Items one after the other, each on new lines. -/
def renderItems (items : List Item) : Except Misplaced String :=
  (Doc.sepBy "\n" (items.map Item.doc)).text

end TraitLift
