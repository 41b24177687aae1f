import TraitLift.Node.Generics
import TraitLift.Print.Type

/-!
Generic parameters and where clauses as text. Attributes of a parameter stand in front of it on the
same line.
-/

namespace TraitLift

/-- Attributes in front of a parameter, on its line. -/
def inlineAttrsDoc (attrs : List Attribute) : Doc := attrs.map fun a => .text (a.text ++ " ")

namespace GenericParam

/-- A generic parameter. -/
def doc : GenericParam → Doc
  | .lifetime p => inlineAttrsDoc p.attrs ++ Doc.str p.text
  | .type n bs d attrs =>
    inlineAttrsDoc attrs ++ Doc.str n
      ++ (if bs.isEmpty then [] else Doc.str ": " ++ boundsDoc bs)
      ++ (match d with
          | some t => Doc.str " = " ++ t.doc
          | none => [])
  | .const n t d attrs =>
    inlineAttrsDoc attrs ++ Doc.str ("const " ++ n ++ ": ") ++ t.doc
      ++ (match d with
          | some e => Doc.str (" = " ++ e)
          | none => [])
  | .misplaced k => Doc.bad .genericParam k

end GenericParam

/-- A parameter list in angle brackets; nothing if there are no parameters. -/
def paramsDoc (ps : List GenericParam) : Doc :=
  if ps.isEmpty then [] else Doc.str "<" ++ Doc.sepBy ", " (ps.map GenericParam.doc) ++ Doc.str ">"

namespace Predicate

/-- A predicate of a where clause. -/
def doc : Predicate → Doc
  | .lifetime l bs => Doc.str (if bs.isEmpty then l ++ ":" else l ++ ": " ++ " + ".intercalate bs)
  | .type ls t bs =>
    binderDoc ls ++ t.doc ++ Doc.str ":"
      ++ (if bs.isEmpty then [] else Doc.str " " ++ boundsDoc bs)
  | .misplaced k => Doc.bad .predicate k

end Predicate

/-- A where clause with a blank in front; nothing if there is no clause. -/
def clauseDoc : Option (List Predicate) → Doc
  | none => []
  | some [] => Doc.str " where"
  | some ps => Doc.str " where " ++ Doc.sepBy ", " (ps.map Predicate.doc)

end TraitLift
