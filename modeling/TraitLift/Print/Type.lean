import TraitLift.Node.Type
import TraitLift.Print.Doc

/-!
Types as text: single blanks after commas and around `+`, `=`, `as` and `->`, and nowhere else.
-/

namespace TraitLift

/-- A lifetime in front of what it applies to; an empty one is left out. -/
def lifetimeDoc : Option String → Doc
  | some l => if l = "" then [] else Doc.str (l ++ " ")
  | none => []

/-- The `extern` of a function with its string, if it has one. -/
def abiDoc : Option String → Doc
  | some a => Doc.str (if a = "" then "extern " else "extern " ++ a ++ " ")
  | none => []

namespace LifetimeParam

/-- A lifetime parameter with its bounds. -/
def text (p : LifetimeParam) : String :=
  if p.bounds.isEmpty then p.name else p.name ++ ": " ++ " + ".intercalate p.bounds

end LifetimeParam

/-- The binder `for<…>`; none if it binds nothing. -/
def binderDoc (ls : List LifetimeParam) : Doc :=
  if ls.isEmpty then []
  else Doc.str ("for<" ++ ", ".intercalate (ls.map LifetimeParam.text) ++ "> ")

mutual

/-- A type. -/
def TypeExpr.doc : TypeExpr → Doc
  | .path p => p.doc
  | .ref l m t => Doc.str "&" ++ lifetimeDoc l ++ Doc.strIf m "mut " ++ t.doc
  | .ptr m t => Doc.str (if m then "*mut " else "*const ") ++ t.doc
  | .slice t => Doc.str "[" ++ t.doc ++ Doc.str "]"
  | .array t n => Doc.str "[" ++ t.doc ++ Doc.str ("; " ++ n ++ "]")
  | .tuple ts =>
    Doc.str "(" ++ Doc.sepBy ", " (typeDocs ts) ++ Doc.str (if ts.length = 1 then ",)" else ")")
  | .paren t => Doc.str "(" ++ t.doc ++ Doc.str ")"
  | .never => Doc.str "!"
  | .infer => Doc.str "_"
  | .traitObject d bs => Doc.strIf d "dyn " ++ Doc.sepBy " + " (boundDocs bs)
  | .implTrait bs => Doc.str "impl " ++ Doc.sepBy " + " (boundDocs bs)
  | .fnPtr ls u a is v o =>
    binderDoc ls ++ Doc.strIf u "unsafe " ++ abiDoc a ++ Doc.str "fn("
      ++ Doc.sepBy ", " (bareArgDocs is ++ if v then [Doc.str "..."] else [])
      ++ Doc.str ")" ++ outputDoc o
  | .macroCall p ts => Doc.str (p ++ "!" ++ ts)
  | .misplaced k => Doc.bad .type k

/-- The documents of some types. -/
def typeDocs : List TypeExpr → List Doc
  | [] => []
  | t :: ts => t.doc :: typeDocs ts

/-- The type that a function returns, if it is given. -/
def outputDoc : Option TypeExpr → Doc
  | some t => Doc.str " -> " ++ t.doc
  | none => []

/-- A path. -/
def Path.doc : Path → Doc
  | ⟨ss, some q, _⟩ => q.doc ++ Doc.sepBy "::" (segmentDocs ss)
  | ⟨ss, none, l⟩ => Doc.strIf l "::" ++ Doc.sepBy "::" (segmentDocs ss)

/-- The opening of a path. -/
def QSelf.doc : QSelf → Doc
  | ⟨t, p⟩ => Doc.str "<" ++ t.doc ++ asTraitDoc p ++ Doc.str ">::"

/-- The trait in the opening of a path, if it is given. -/
def asTraitDoc : Option Path → Doc
  | some p => Doc.str " as " ++ p.doc
  | none => []

/-- A segment of a path. -/
def Segment.doc : Segment → Doc
  | ⟨n, a⟩ => Doc.str n ++ argsDoc a

/-- The documents of some segments. -/
def segmentDocs : List Segment → List Doc
  | [] => []
  | s :: ss => s.doc :: segmentDocs ss

/-- The arguments of a segment, if it has any. -/
def argsDoc : Option GenericArgs → Doc
  | some a => a.doc
  | none => []

/-- The arguments of a segment. -/
def GenericArgs.doc : GenericArgs → Doc
  | .angle as t =>
    Doc.str (if t then "::<" else "<") ++ Doc.sepBy ", " (argDocs as) ++ Doc.str ">"
  | .paren is o => Doc.str "(" ++ Doc.sepBy ", " (typeDocs is) ++ Doc.str ")" ++ outputDoc o
  | .misplaced k => Doc.bad .genericArgs k

/-- An argument between angle brackets. -/
def GenericArg.doc : GenericArg → Doc
  | .type t => t.doc
  | .lifetime n => Doc.str n
  | .const e => Doc.str e
  | .binding n as t => Doc.str n ++ argsDoc as ++ Doc.str " = " ++ t.doc
  | .constraint n as bs =>
    Doc.str n ++ argsDoc as ++ Doc.str ": " ++ Doc.sepBy " + " (boundDocs bs)
  | .misplaced k => Doc.bad .genericArg k

/-- The documents of some arguments. -/
def argDocs : List GenericArg → List Doc
  | [] => []
  | a :: as => a.doc :: argDocs as

/-- A bound. -/
def Bound.doc : Bound → Doc
  | .lifetime n => Doc.str n
  | .trait ls m p par =>
    Doc.strIf par "(" ++ binderDoc ls ++ Doc.str m ++ p.doc ++ Doc.strIf par ")"
  | .misplaced k => Doc.bad .bound k

/-- The documents of some bounds. -/
def boundDocs : List Bound → List Doc
  | [] => []
  | b :: bs => b.doc :: boundDocs bs

/-- A parameter of a function pointer type. -/
def BareArg.doc : BareArg → Doc
  | ⟨some n, t⟩ => Doc.str (n ++ ": ") ++ t.doc
  | ⟨none, t⟩ => t.doc

/-- The documents of the parameters of a function pointer type. -/
def bareArgDocs : List BareArg → List Doc
  | [] => []
  | a :: as => a.doc :: bareArgDocs as

end

/-- A list of bounds. -/
def boundsDoc (bs : List Bound) : Doc := Doc.sepBy " + " (boundDocs bs)

end TraitLift
