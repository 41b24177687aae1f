import TraitLift.Node.Member
import TraitLift.Print.Generics
import TraitLift.Text.Class

/-!
Members as lines of text: each attribute has a line of its own, and the member is on the last.
-/

namespace TraitLift

namespace Visibility

/-- The visibility with a blank after it; nothing if it is inherited. -/
def text : Visibility → String
  | .inherited => ""
  | .pub => "pub "
  | .crate => "crate "
  | .restricted scope => "pub(" ++ scope ++ ") "

end Visibility

namespace FnArg

/-- A parameter of a function. -/
def doc : FnArg → Doc
  | .receiver true l m _ attrs =>
    inlineAttrsDoc attrs ++ Doc.str "&" ++ lifetimeDoc l ++ Doc.strIf m "mut " ++ Doc.str "self"
  | .receiver false _ m t attrs =>
    inlineAttrsDoc attrs ++ Doc.strIf m "mut " ++ Doc.str "self"
      ++ (match t with
          | some t => Doc.str ": " ++ t.doc
          | none => [])
  | .typed p t attrs => inlineAttrsDoc attrs ++ Doc.str (p ++ ": ") ++ t.doc
  | .variadic (some p) attrs => inlineAttrsDoc attrs ++ Doc.str (p ++ ": ...")
  | .variadic none attrs => inlineAttrsDoc attrs ++ Doc.str "..."
  | .misplaced k => Doc.bad .fnArg k

end FnArg

namespace Signature

/-- The head of a function. -/
def doc (s : Signature) : Doc :=
  Doc.strIf s.constness "const " ++ Doc.strIf s.asyncness "async "
    ++ Doc.strIf s.unsafety "unsafe " ++ abiDoc s.abi
    ++ Doc.str ("fn " ++ s.name) ++ paramsDoc s.generics.params
    ++ Doc.str "(" ++ Doc.sepBy ", " (s.inputs.map FnArg.doc) ++ Doc.str ")"
    ++ outputDoc s.output ++ clauseDoc s.generics.clause

end Signature

namespace MacroCall

/-- A macro call. A name after the exclamation mark is set off by a blank. -/
def text (m : MacroCall) : String :=
  let gap := if (m.tokens.toList.take 1).any Text.isIdentStart then " " else ""
  m.path ++ "!" ++ gap ++ m.tokens ++ (if m.semi then ";" else "")

end MacroCall

/-- The attributes of a member, a line each, and the member's own line. -/
def memberLines (attrs : List Attribute) (line : Doc) : List Doc :=
  attrs.map (fun a => Doc.str a.text) ++ [line]

/-- What stands in front of a member that a block defines. -/
def markersDoc (vis : Visibility) (defaultness : Bool) : Doc :=
  Doc.str vis.text ++ Doc.strIf defaultness "default "

/-- An associated type up to its definition. -/
def assocHeadDoc (name : String) (generics : Generics) (bounds : List Bound) : Doc :=
  Doc.str ("type " ++ name) ++ paramsDoc generics.params
    ++ (if bounds.isEmpty then [] else Doc.str ": " ++ boundsDoc bounds)

namespace Member

/-- The lines of a member, without indentation. -/
def lines : Member → List Doc
  | .method m =>
    memberLines m.attrs
      (markersDoc m.vis m.defaultness ++ m.sig.doc ++ Doc.str (" " ++ m.body))
  | .constant c =>
    memberLines c.attrs
      (markersDoc c.vis c.defaultness ++ Doc.str ("const " ++ c.name ++ ": ") ++ c.ty.doc
        ++ Doc.str (" = " ++ c.value ++ ";"))
  | .assocType t =>
    memberLines t.attrs
      (markersDoc t.vis t.defaultness ++ assocHeadDoc t.name t.generics t.bounds ++ Doc.str " = "
        ++ t.definition.doc ++ clauseDoc t.generics.clause ++ Doc.str ";")
  | .macroCall m => memberLines m.attrs (Doc.str m.text)
  | .verbatim text _ => [Doc.str text]
  | .foreign _ text _ => [Doc.str text]
  | .traitMethod m => memberLines m.attrs (m.sig.doc ++ Doc.str ";")
  | .traitConst c =>
    memberLines c.attrs (Doc.str ("const " ++ c.name ++ ": ") ++ c.ty.doc ++ Doc.str ";")
  | .traitType t =>
    memberLines t.attrs
      (assocHeadDoc t.name t.generics t.bounds ++ clauseDoc t.generics.clause ++ Doc.str ";")
  | .misplaced k _ => [Doc.bad .member k]

end Member

end TraitLift
