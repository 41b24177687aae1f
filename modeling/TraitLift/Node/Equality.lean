import TraitLift.Node.Type

/-!
Equality of types is decidable. `TypeExpr.same` and its companions walk two trees side by side;
`TypeExpr.same_iff` says that they find exactly the equal ones.
-/

namespace TraitLift

mutual

/-- Whether two types are equal. -/
def TypeExpr.same : TypeExpr → TypeExpr → Bool
  | .path p, .path q => p.same q
  | .ref l m t, .ref l' m' t' => l == l' && m == m' && t.same t'
  | .ptr m t, .ptr m' t' => m == m' && t.same t'
  | .slice t, .slice t' => t.same t'
  | .array t n, .array t' n' => t.same t' && n == n'
  | .tuple ts, .tuple ts' => sameTypes ts ts'
  | .paren t, .paren t' => t.same t'
  | .never, .never => true
  | .infer, .infer => true
  | .traitObject d bs, .traitObject d' bs' => d == d' && sameBounds bs bs'
  | .implTrait bs, .implTrait bs' => sameBounds bs bs'
  | .fnPtr ls u a is v o, .fnPtr ls' u' a' is' v' o' =>
    ls == ls' && u == u' && a == a' && sameBareArgs is is' && v == v' && sameType? o o'
  | .macroCall p ts, .macroCall p' ts' => p == p' && ts == ts'
  | .misplaced k, .misplaced k' => k == k'
  | _, _ => false
termination_by structural a => a

/-- Whether two lists of types are equal. -/
def sameTypes : List TypeExpr → List TypeExpr → Bool
  | [], [] => true
  | t :: ts, t' :: ts' => t.same t' && sameTypes ts ts'
  | _, _ => false
termination_by structural a => a

/-- Whether two optional types are equal. -/
def sameType? : Option TypeExpr → Option TypeExpr → Bool
  | none, none => true
  | some t, some t' => t.same t'
  | _, _ => false
termination_by structural a => a

/-- Whether two paths are equal. -/
def Path.same : Path → Path → Bool
  | ⟨ss, q, l⟩, ⟨ss', q', l'⟩ => sameSegments ss ss' && sameQSelf? q q' && l == l'
termination_by structural a => a

/-- Whether two optional paths are equal. -/
def samePath? : Option Path → Option Path → Bool
  | none, none => true
  | some p, some p' => p.same p'
  | _, _ => false
termination_by structural a => a

/-- Whether two openings of a path are equal. -/
def QSelf.same : QSelf → QSelf → Bool
  | ⟨t, p⟩, ⟨t', p'⟩ => t.same t' && samePath? p p'
termination_by structural a => a

/-- Whether two optional openings of a path are equal. -/
def sameQSelf? : Option QSelf → Option QSelf → Bool
  | none, none => true
  | some q, some q' => q.same q'
  | _, _ => false
termination_by structural a => a

/-- Whether two segments are equal. -/
def Segment.same : Segment → Segment → Bool
  | ⟨n, a⟩, ⟨n', a'⟩ => n == n' && sameArgs? a a'
termination_by structural a => a

/-- Whether two lists of segments are equal. -/
def sameSegments : List Segment → List Segment → Bool
  | [], [] => true
  | s :: ss, s' :: ss' => s.same s' && sameSegments ss ss'
  | _, _ => false
termination_by structural a => a

/-- Whether the arguments of two segments are equal. -/
def GenericArgs.same : GenericArgs → GenericArgs → Bool
  | .angle as t, .angle as' t' => sameArgs as as' && t == t'
  | .paren is o, .paren is' o' => sameTypes is is' && sameType? o o'
  | .misplaced k, .misplaced k' => k == k'
  | _, _ => false
termination_by structural a => a

/-- Whether the arguments of two segments, where given, are equal. -/
def sameArgs? : Option GenericArgs → Option GenericArgs → Bool
  | none, none => true
  | some a, some a' => a.same a'
  | _, _ => false
termination_by structural a => a

/-- Whether two arguments are equal. -/
def GenericArg.same : GenericArg → GenericArg → Bool
  | .type t, .type t' => t.same t'
  | .lifetime n, .lifetime n' => n == n'
  | .const e, .const e' => e == e'
  | .binding n as t, .binding n' as' t' => n == n' && sameArgs? as as' && t.same t'
  | .constraint n as bs, .constraint n' as' bs' => n == n' && sameArgs? as as' && sameBounds bs bs'
  | .misplaced k, .misplaced k' => k == k'
  | _, _ => false
termination_by structural a => a

/-- Whether two lists of arguments are equal. -/
def sameArgs : List GenericArg → List GenericArg → Bool
  | [], [] => true
  | a :: as, a' :: as' => a.same a' && sameArgs as as'
  | _, _ => false
termination_by structural a => a

/-- Whether two bounds are equal. -/
def Bound.same : Bound → Bound → Bool
  | .lifetime n, .lifetime n' => n == n'
  | .trait ls m p b, .trait ls' m' p' b' => ls == ls' && m == m' && p.same p' && b == b'
  | .misplaced k, .misplaced k' => k == k'
  | _, _ => false
termination_by structural a => a

/-- Whether two lists of bounds are equal. -/
def sameBounds : List Bound → List Bound → Bool
  | [], [] => true
  | b :: bs, b' :: bs' => b.same b' && sameBounds bs bs'
  | _, _ => false
termination_by structural a => a

/-- Whether two parameters of function pointers are equal. -/
def BareArg.same : BareArg → BareArg → Bool
  | ⟨n, t⟩, ⟨n', t'⟩ => n == n' && t.same t'
termination_by structural a => a

/-- Whether two parameter lists of function pointers are equal. -/
def sameBareArgs : List BareArg → List BareArg → Bool
  | [], [] => true
  | a :: as, a' :: as' => a.same a' && sameBareArgs as as'
  | _, _ => false
termination_by structural a => a

end

mutual

theorem TypeExpr.same_iff : ∀ a b : TypeExpr, a.same b = true ↔ a = b
  | .path p, b => by cases b <;> simp [TypeExpr.same, Path.same_iff p]
  | .ref l m t, b => by cases b <;> simp [TypeExpr.same, TypeExpr.same_iff t, and_assoc]
  | .ptr m t, b => by cases b <;> simp [TypeExpr.same, TypeExpr.same_iff t]
  | .slice t, b => by cases b <;> simp [TypeExpr.same, TypeExpr.same_iff t]
  | .array t n, b => by cases b <;> simp [TypeExpr.same, TypeExpr.same_iff t]
  | .tuple ts, b => by cases b <;> simp [TypeExpr.same, sameTypes_iff ts]
  | .paren t, b => by cases b <;> simp [TypeExpr.same, TypeExpr.same_iff t]
  | .never, b => by cases b <;> simp [TypeExpr.same]
  | .infer, b => by cases b <;> simp [TypeExpr.same]
  | .traitObject d bs, b => by cases b <;> simp [TypeExpr.same, sameBounds_iff bs]
  | .implTrait bs, b => by cases b <;> simp [TypeExpr.same, sameBounds_iff bs]
  | .fnPtr ls u a is v o, b => by
    cases b <;> simp [TypeExpr.same, sameBareArgs_iff is, sameType?_iff o, and_assoc]
  | .macroCall p ts, b => by cases b <;> simp [TypeExpr.same]
  | .misplaced k, b => by cases b <;> simp [TypeExpr.same]
termination_by structural a => a

theorem sameTypes_iff : ∀ a b : List TypeExpr, sameTypes a b = true ↔ a = b
  | [], b => by cases b <;> simp [sameTypes]
  | t :: ts, b => by cases b <;> simp [sameTypes, TypeExpr.same_iff t, sameTypes_iff ts]
termination_by structural a => a

theorem sameType?_iff : ∀ a b : Option TypeExpr, sameType? a b = true ↔ a = b
  | none, b => by cases b <;> simp [sameType?]
  | some t, b => by cases b <;> simp [sameType?, TypeExpr.same_iff t]
termination_by structural a => a

theorem Path.same_iff : ∀ a b : Path, a.same b = true ↔ a = b
  | ⟨ss, q, l⟩, ⟨ss', q', l'⟩ => by
    simp [Path.same, sameSegments_iff ss, sameQSelf?_iff q, and_assoc]
termination_by structural a => a

theorem samePath?_iff : ∀ a b : Option Path, samePath? a b = true ↔ a = b
  | none, b => by cases b <;> simp [samePath?]
  | some p, b => by cases b <;> simp [samePath?, Path.same_iff p]
termination_by structural a => a

theorem QSelf.same_iff : ∀ a b : QSelf, a.same b = true ↔ a = b
  | ⟨t, p⟩, ⟨t', p'⟩ => by simp [QSelf.same, TypeExpr.same_iff t, samePath?_iff p]
termination_by structural a => a

theorem sameQSelf?_iff : ∀ a b : Option QSelf, sameQSelf? a b = true ↔ a = b
  | none, b => by cases b <;> simp [sameQSelf?]
  | some q, b => by cases b <;> simp [sameQSelf?, QSelf.same_iff q]
termination_by structural a => a

theorem Segment.same_iff : ∀ a b : Segment, a.same b = true ↔ a = b
  | ⟨n, a⟩, ⟨n', a'⟩ => by simp [Segment.same, sameArgs?_iff a]
termination_by structural a => a

theorem sameSegments_iff : ∀ a b : List Segment, sameSegments a b = true ↔ a = b
  | [], b => by cases b <;> simp [sameSegments]
  | s :: ss, b => by cases b <;> simp [sameSegments, Segment.same_iff s, sameSegments_iff ss]
termination_by structural a => a

theorem GenericArgs.same_iff : ∀ a b : GenericArgs, a.same b = true ↔ a = b
  | .angle as t, b => by cases b <;> simp [GenericArgs.same, sameArgs_iff as]
  | .paren is o, b => by cases b <;> simp [GenericArgs.same, sameTypes_iff is, sameType?_iff o]
  | .misplaced k, b => by cases b <;> simp [GenericArgs.same]
termination_by structural a => a

theorem sameArgs?_iff : ∀ a b : Option GenericArgs, sameArgs? a b = true ↔ a = b
  | none, b => by cases b <;> simp [sameArgs?]
  | some a, b => by cases b <;> simp [sameArgs?, GenericArgs.same_iff a]
termination_by structural a => a

theorem GenericArg.same_iff : ∀ a b : GenericArg, a.same b = true ↔ a = b
  | .type t, b => by cases b <;> simp [GenericArg.same, TypeExpr.same_iff t]
  | .lifetime n, b => by cases b <;> simp [GenericArg.same]
  | .const e, b => by cases b <;> simp [GenericArg.same]
  | .binding n as t, b => by
    cases b <;> simp [GenericArg.same, sameArgs?_iff as, TypeExpr.same_iff t, and_assoc]
  | .constraint n as bs, b => by
    cases b <;> simp [GenericArg.same, sameArgs?_iff as, sameBounds_iff bs, and_assoc]
  | .misplaced k, b => by cases b <;> simp [GenericArg.same]
termination_by structural a => a

theorem sameArgs_iff : ∀ a b : List GenericArg, sameArgs a b = true ↔ a = b
  | [], b => by cases b <;> simp [sameArgs]
  | a :: as, b => by cases b <;> simp [sameArgs, GenericArg.same_iff a, sameArgs_iff as]
termination_by structural a => a

theorem Bound.same_iff : ∀ a b : Bound, a.same b = true ↔ a = b
  | .lifetime n, b => by cases b <;> simp [Bound.same]
  | .trait ls m p par, b => by cases b <;> simp [Bound.same, Path.same_iff p, and_assoc]
  | .misplaced k, b => by cases b <;> simp [Bound.same]
termination_by structural a => a

theorem sameBounds_iff : ∀ a b : List Bound, sameBounds a b = true ↔ a = b
  | [], b => by cases b <;> simp [sameBounds]
  | a :: as, b => by cases b <;> simp [sameBounds, Bound.same_iff a, sameBounds_iff as]
termination_by structural a => a

theorem BareArg.same_iff : ∀ a b : BareArg, a.same b = true ↔ a = b
  | ⟨n, t⟩, ⟨n', t'⟩ => by simp [BareArg.same, TypeExpr.same_iff t]
termination_by structural a => a

theorem sameBareArgs_iff : ∀ a b : List BareArg, sameBareArgs a b = true ↔ a = b
  | [], b => by cases b <;> simp [sameBareArgs]
  | a :: as, b => by cases b <;> simp [sameBareArgs, BareArg.same_iff a, sameBareArgs_iff as]
termination_by structural a => a

end

instance : DecidableEq TypeExpr := fun a b => decidable_of_iff _ (TypeExpr.same_iff a b)
instance : DecidableEq Path := fun a b => decidable_of_iff _ (Path.same_iff a b)
instance : DecidableEq Bound := fun a b => decidable_of_iff _ (Bound.same_iff a b)
instance : DecidableEq GenericArgs := fun a b => decidable_of_iff _ (GenericArgs.same_iff a b)
instance : DecidableEq GenericArg := fun a b => decidable_of_iff _ (GenericArg.same_iff a b)

end TraitLift
