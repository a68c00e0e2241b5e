import LoxLang.Scope
import LoxLang.Tree.References

/-!
# Programs laid out as their texts have them

Declarations and references stand one after the other, and local scopes hold more of them (`Item`).
Of every reference this tells what each scope around it holds before it (`programOccurrences`).
-/

namespace LoxLang

/-- What a text holds that matters to its scopes. -/
inductive Item where
  | declares (name : String)
  | refers (kind : ReferenceKind) (r : Reference)
  /-- A local scope: of the methods of a class, or of a block or a function. -/
  | scope (ofMethods : Bool) (items : List Item)

def referenceItems (references : List (ReferenceKind × Reference)) : List Item :=
  references.map fun (kind, r) => .refers kind r

/-- The scopes around the methods of a class. -/
def methodScopes (hasSuperclass : Bool) (methods : List Item) : Item :=
  let inner := Item.scope true (.declares "this" :: methods)
  if hasSuperclass then .scope false [.declares "super", inner] else inner

/-- Each parameter declares its name. -/
def parameterItems (parameters : List Token) : List Item :=
  parameters.map fun p => .declares p.lexeme

mutual
/-- A statement as its text has it. A variable is declared before its initializer, and a function or
a class before all that it holds. -/
def Stmt.items : Stmt → List Item
  | .missing => []
  | .block body => [.scope false (stmtItems body)]
  | .classDecl name superclass methods =>
    .declares name.lexeme :: (superclass.toList.map (.refers .variable) ++
      [methodScopes superclass.isSome (functionItems methods)])
  | .expression value => referenceItems value.references
  | .function f => [.declares f.name.lexeme, f.item]
  | .ifElse condition thenBranch elseBranch =>
    referenceItems condition.references ++ (thenBranch.items ++ elseBranch.items)
  | .print value => referenceItems value.references
  | .returning _ value => referenceItems (Expr.optionReferences value)
  | .varDecl name initializer =>
    .declares name.lexeme :: referenceItems (Expr.optionReferences initializer)
  | .whileLoop condition body => referenceItems condition.references ++ body.items
/-- The scope of a function holds its parameters and its body. -/
def Function.item : Function → Item
  | .mk _ parameters body => .scope false (parameterItems parameters ++ stmtItems body)
def stmtItems : List Stmt → List Item
  | [] => []
  | s :: rest => s.items ++ stmtItems rest
def functionItems : List Function → List Item
  | [] => []
  | f :: rest => f.item :: functionItems rest
end

/-! ## Where references stand -/

/-- A reference with where it stands. -/
structure Occurrence where
  kind : ReferenceKind
  reference : Reference
  /-- What each local scope around the reference holds before it, the innermost scope first. -/
  around : List (List Item)
  inClass : Bool

/-- What the scopes hold before a point and then before the point behind more items. -/
def passing (items : List Item) : List (List Item) → List (List Item)
  | [] => []
  | before :: outer => (before ++ items) :: outer

mutual
/-- The references of an item, in the order of the text. -/
def Item.occurrences (around : List (List Item)) (inClass : Bool) : Item → List Occurrence
  | .declares _ => []
  | .refers kind r => [⟨kind, r, around, inClass⟩]
  | .scope ofMethods items => itemOccurrences ([] :: around) (inClass || ofMethods) items
def itemOccurrences (around : List (List Item)) (inClass : Bool) : List Item → List Occurrence
  | [] => []
  | i :: rest => i.occurrences around inClass ++ itemOccurrences (passing [i] around) inClass rest
end

/-- The references of a program, in the order of the text. No local scope is around the whole
program. -/
def programOccurrences (program : List Stmt) : List Occurrence :=
  itemOccurrences [] false (stmtItems program)

/-! ## Items one after the other -/

theorem passing_append (items more : List Item) (around : List (List Item)) :
    passing (items ++ more) around = passing more (passing items around) := by
  cases around <;> simp [passing]

theorem itemOccurrences_append (items more : List Item) :
    itemOccurrences around inClass (items ++ more) =
      itemOccurrences around inClass items ++
        itemOccurrences (passing items around) inClass more := by
  induction items generalizing around with
  | nil => cases around <;> simp [itemOccurrences, passing]
  | cons i items ih =>
    rw [List.cons_append, itemOccurrences, ih, itemOccurrences, List.append_assoc,
      ← passing_append, List.singleton_append]

/-! ## Every reference stands somewhere -/

/-- The reference as a list of references has it. -/
def Occurrence.listed (p : Occurrence) : ReferenceKind × Reference := (p.kind, p.reference)

theorem listed_referenceItems (rs : List (ReferenceKind × Reference)) (around : List (List Item))
    (inClass : Bool) :
    (itemOccurrences around inClass (referenceItems rs)).map Occurrence.listed = rs := by
  induction rs generalizing around with
  | nil => rfl
  | cons r rs ih => exact congrArg (r :: ·) (ih _)

theorem itemOccurrences_parameterItems (ps : List Token) (around : List (List Item))
    (inClass : Bool) :
    itemOccurrences around inClass (parameterItems ps) = [] := by
  induction ps generalizing around with
  | nil => rfl
  | cons p ps ih => exact ih _

theorem listed_methodScopes {items : List Item}
    (h : ∀ around inClass, (itemOccurrences around inClass items).map Occurrence.listed = rs)
    (hasSuperclass : Bool) (around : List (List Item)) (inClass : Bool) :
    (itemOccurrences around inClass [methodScopes hasSuperclass items]).map Occurrence.listed =
      rs := by
  cases hasSuperclass <;>
    simp [methodScopes, itemOccurrences, Item.occurrences, h]

mutual
theorem Stmt.listed_items : ∀ (s : Stmt) (around : List (List Item)) (inClass : Bool),
    (itemOccurrences around inClass s.items).map Occurrence.listed = s.references
  | .missing, _, _ => rfl
  | .block body, _, _ => by
    simp [Stmt.items, itemOccurrences, Item.occurrences, Stmt.references, listed_stmtItems body]
  | .classDecl _ superclass methods, _, _ => by
    have hmethods := listed_methodScopes (listed_functionItems methods)
    simp only [Stmt.items, Stmt.references]
    cases superclass with
    | none => exact hmethods false _ _
    | some r => exact congrArg ((ReferenceKind.variable, r) :: ·) (hmethods true _ _)
  | .expression value, _, _ => by
    simp only [Stmt.items, Stmt.references, listed_referenceItems]
  | .function f, around, inClass => by
    simp only [Stmt.items, Stmt.references]
    exact f.listed_item _ inClass
  | .ifElse _ t e, _, _ => by
    simp only [Stmt.items, Stmt.references, itemOccurrences_append, List.map_append,
      listed_referenceItems, t.listed_items, e.listed_items, List.append_assoc]
  | .print value, _, _ => by
    simp only [Stmt.items, Stmt.references, listed_referenceItems]
  | .returning _ value, _, _ => by
    simp only [Stmt.items, Stmt.references, listed_referenceItems]
  | .varDecl _ initializer, _, _ => by
    simp only [Stmt.items, Stmt.references]
    exact listed_referenceItems _ _ _
  | .whileLoop _ body, _, _ => by
    simp only [Stmt.items, Stmt.references, itemOccurrences_append, List.map_append,
      listed_referenceItems, body.listed_items]
theorem Function.listed_item : ∀ (f : Function) (around : List (List Item)) (inClass : Bool),
    (itemOccurrences around inClass [f.item]).map Occurrence.listed = f.references
  | .mk _ ps body, _, _ => by
    simp [Function.item, itemOccurrences, Item.occurrences, Function.references,
      itemOccurrences_append, itemOccurrences_parameterItems, listed_stmtItems body]
theorem listed_stmtItems : ∀ (ss : List Stmt) (around : List (List Item)) (inClass : Bool),
    (itemOccurrences around inClass (stmtItems ss)).map Occurrence.listed = stmtReferences ss
  | [], _, _ => rfl
  | s :: ss, _, _ => by
    simp only [stmtItems, stmtReferences, itemOccurrences_append, List.map_append, s.listed_items,
      listed_stmtItems ss]
theorem listed_functionItems : ∀ (fs : List Function) (around : List (List Item)) (inClass : Bool),
    (itemOccurrences around inClass (functionItems fs)).map Occurrence.listed =
      functionReferences fs
  | [], _, _ => rfl
  | f :: fs, around, inClass => by
    have hf := f.listed_item around inClass
    simp only [itemOccurrences, List.append_nil] at hf
    simp only [functionItems, functionReferences, itemOccurrences, List.map_append, hf,
      listed_functionItems fs]
end

end LoxLang
