import LoxLang.Proofs.Scopes

/-!
# The rules of scopes

Each violation is a rule about one place in a program and the constructs around it (`Spot.Breaks`):
what the innermost local scope declares before the place, whose initializer the place is in, and
which function and which class are the innermost ones. The resolver goes over the places in order
and reports exactly those that break a rule (`resolver_reports_exactly_the_violations`).
-/

namespace LoxLang

/-! ## Programs as places -/

/-- A construct that other parts of a program stand in. -/
inductive Construct where
  | block
  /-- The parameters and the body of a function that is not a method. -/
  | function
  /-- The parameters and the body of a method. -/
  | method (name : String)
  | classBody (hasSuperclass : Bool)
  /-- The initializer of a variable. -/
  | initializer (variableName : String)
deriving DecidableEq

/-- What the rules of scopes are about. -/
inductive Mark where
  | declares (name : Token)
  | reads (name : Token)
  | returns (keyword : Token) (hasValue : Bool)
  | this (keyword : Token)
  | super (keyword : Token)
  | inherits (className superclass : Token)
  | inside (c : Construct) (marks : List Mark)

mutual
/-- The marks of an expression. A target of an assignment is not read, and the value of an
assignment to a property comes before the object. -/
def Expr.marks : Expr → List Mark
  | .missing | .literal _ => []
  | .assign _ value => value.marks
  | .binary left _ right | .logical left _ right => left.marks ++ right.marks
  | .call callee _ arguments => callee.marks ++ exprMarks arguments
  | .get inner _ | .grouping inner | .unary _ inner => inner.marks
  | .set object _ value => value.marks ++ object.marks
  | .super keyword _ => [.super keyword.name]
  | .this keyword => [.this keyword.name]
  | .variable target => [.reads target.name]
def exprMarks : List Expr → List Mark
  | [] => []
  | e :: rest => e.marks ++ exprMarks rest
end

/-- The marks of an expression that may be absent. -/
def Expr.optionMarks (o : Option Expr) : List Mark := (o.map Expr.marks).getD []

/-- A superclass is named, and it is a variable that is read. -/
def Reference.superclassMarks (className : Token) (r : Reference) : List Mark :=
  [.inherits className r.name, .reads r.name]

mutual
/-- The marks of a statement. What has no scope of its own, such as the branches of a conditional,
is part of what is around it. -/
def Stmt.marks : Stmt → List Mark
  | .missing => []
  | .block body => [.inside .block (stmtMarks body)]
  | .classDecl name superclass methods =>
    .declares name :: (((superclass.map (·.superclassMarks name)).getD []) ++
      [.inside (.classBody superclass.isSome) (methodMarks methods)])
  | .expression value | .print value => value.marks
  | .function f => [.declares f.name, .inside .function f.marks]
  | .ifElse condition thenBranch elseBranch =>
    condition.marks ++ (thenBranch.marks ++ elseBranch.marks)
  | .returning keyword value => .returns keyword value.isSome :: Expr.optionMarks value
  | .varDecl name initializer =>
    [.declares name, .inside (.initializer name.lexeme) (Expr.optionMarks initializer)]
  | .whileLoop condition body => condition.marks ++ body.marks
def Function.marks : Function → List Mark
  | .mk _ parameters body => parameters.map .declares ++ stmtMarks body
def methodMarks : List Function → List Mark
  | [] => []
  | f :: rest => .inside (.method f.name.lexeme) f.marks :: methodMarks rest
def stmtMarks : List Stmt → List Mark
  | [] => []
  | s :: rest => s.marks ++ stmtMarks rest
end

namespace Construct

/-- A class body is none: it holds nothing but methods. -/
def isScope : Construct → Bool
  | block | function | method _ => true
  | classBody _ | initializer _ => false

def isFunction : Construct → Bool
  | function | method _ => true
  | block | classBody _ | initializer _ => false

def isClass : Construct → Bool
  | classBody _ => true
  | block | function | method _ | initializer _ => false

def initialized? : Construct → Option String
  | initializer x => some x
  | block | function | method _ | classBody _ => none

end Construct

/-- The constructs around a place, innermost first, and what each of them holds before the place. -/
abbrev Surroundings := List (Construct × List Mark)

namespace Surroundings

/-- The surroundings of the place behind some marks. -/
def behind (marks : List Mark) : Surroundings → Surroundings
  | [] => []
  | (c, before) :: outer => (c, before ++ marks) :: outer

/-- What the innermost local scope holds before the place. -/
def scope? (around : Surroundings) : Option (List Mark) :=
  (around.find? (·.1.isScope)).map (·.2)

/-- The variables in whose initializers the place is, as far as the innermost local scope. -/
def initializing (around : Surroundings) : List String :=
  (around.takeWhile (!·.1.isScope)).filterMap (·.1.initialized?)

def function? (around : Surroundings) : Option Construct :=
  (around.map (·.1)).find? Construct.isFunction

def class? (around : Surroundings) : Option Construct :=
  (around.map (·.1)).find? Construct.isClass

/-- The innermost local scope declares a name before the place. -/
def Declares (around : Surroundings) (x : String) : Prop :=
  ∃ before, around.scope? = some before ∧ ∃ t, .declares t ∈ before ∧ t.lexeme = x

end Surroundings

/-- A mark with what is around it. -/
structure Spot where
  mark : Mark
  around : Surroundings

mutual
/-- The places of a mark, in the order of the text. -/
def Mark.spots (around : Surroundings) : Mark → List Spot
  | .inside c marks => markSpots ((c, []) :: around) marks
  | m => [⟨m, around⟩]
def markSpots (around : Surroundings) : List Mark → List Spot
  | [] => []
  | m :: rest => m.spots around ++ markSpots (around.behind [m]) rest
end

/-- The places of a program. Nothing is around the whole program. -/
def programSpots (program : List Stmt) : List Spot := markSpots [] (stmtMarks program)

/-! ## The rules -/

/-- The rules that a place breaks, each with the token that is to blame. -/
inductive Spot.Breaks (p : Spot) : Finding → Prop where
  /-- A variable of the innermost local scope is read in its own initializer. -/
  | ownInitializer (hm : p.mark = .reads t) (hd : p.around.Declares t.lexeme)
      (hi : t.lexeme ∈ p.around.initializing) : Breaks p (t, .ownInitializer)
  /-- The innermost local scope declares the name already. -/
  | redeclared (hm : p.mark = .declares t) (hd : p.around.Declares t.lexeme) :
      Breaks p (t, .redeclared)
  | topLevelReturn (hm : p.mark = .returns t hasValue) (hf : p.around.function? = none) :
      Breaks p (t, .topLevelReturn)
  | initializerValue (hm : p.mark = .returns t true)
      (hf : p.around.function? = some (.method "init")) : Breaks p (t, .initializerValue)
  | thisOutsideClass (hm : p.mark = .this t) (hc : p.around.class? = none) :
      Breaks p (t, .thisOutsideClass)
  | superOutsideClass (hm : p.mark = .super t) (hc : p.around.class? = none) :
      Breaks p (t, .superOutsideClass)
  | superWithoutSuperclass (hm : p.mark = .super t)
      (hc : p.around.class? = some (.classBody false)) : Breaks p (t, .superWithoutSuperclass)
  | selfInheritance (hm : p.mark = .inherits name t) (hn : name.lexeme = t.lexeme) :
      Breaks p (t, .selfInheritance)

namespace Spot

variable {around : Surroundings}

theorem breaks_declares_iff : Breaks ⟨.declares t, around⟩ f ↔
    f = (t, .redeclared) ∧ around.Declares t.lexeme := by
  constructor
  · intro h
    cases h <;> simp_all
  · rintro ⟨rfl, hd⟩
    exact .redeclared rfl hd

theorem breaks_reads_iff : Breaks ⟨.reads t, around⟩ f ↔
    f = (t, .ownInitializer) ∧ around.Declares t.lexeme ∧ t.lexeme ∈ around.initializing := by
  constructor
  · intro h
    cases h <;> simp_all
  · rintro ⟨rfl, hd, hi⟩
    exact .ownInitializer rfl hd hi

theorem breaks_returns_iff : Breaks ⟨.returns t hasValue, around⟩ f ↔
    (f = (t, .topLevelReturn) ∧ around.function? = none) ∨
      (f = (t, .initializerValue) ∧ hasValue = true ∧
        around.function? = some (.method "init")) := by
  constructor
  · intro h
    cases h <;> simp_all
  · rintro (⟨rfl, hf⟩ | ⟨rfl, rfl, hf⟩)
    · exact .topLevelReturn rfl hf
    · exact .initializerValue rfl hf

theorem breaks_this_iff : Breaks ⟨.this t, around⟩ f ↔
    f = (t, .thisOutsideClass) ∧ around.class? = none := by
  constructor
  · intro h
    cases h <;> simp_all
  · rintro ⟨rfl, hc⟩
    exact .thisOutsideClass rfl hc

theorem breaks_inherits_iff : Breaks ⟨.inherits name t, around⟩ f ↔
    f = (t, .selfInheritance) ∧ name.lexeme = t.lexeme := by
  constructor
  · intro h
    cases h <;> simp_all
  · rintro ⟨rfl, hn⟩
    exact .selfInheritance rfl hn

end Spot

/-- A place breaks at most one rule. -/
theorem Spot.Breaks.unique {p : Spot} (h : p.Breaks f) (h' : p.Breaks g) : g = f := by
  cases h <;> cases h' <;> simp_all

/-- The violations that some places commit, in order: one for each place that breaks a rule. -/
inductive Finds : List Spot → List Finding → Prop where
  | nil : Finds [] []
  | clean (h : ∀ f, ¬p.Breaks f) (hs : Finds ps fs) : Finds (p :: ps) fs
  | found (h : p.Breaks f) (hs : Finds ps fs) : Finds (p :: ps) (f :: fs)

namespace Finds

theorem append (h : Finds ps fs) (h' : Finds qs gs) : Finds (ps ++ qs) (fs ++ gs) := by
  induction h with
  | nil => exact h'
  | clean hp _ ih => exact .clean hp ih
  | found hp _ ih => exact .found hp ih

theorem eq_nil_iff (h : Finds ps fs) : fs = [] ↔ ∀ p ∈ ps, ∀ f, ¬p.Breaks f := by
  induction h with
  | nil => simp
  | clean hp _ ih => simp [ih, hp]
  | found hp _ _ =>
    simp only [List.cons_ne_nil, false_iff]
    exact fun hno => hno _ List.mem_cons_self _ hp

/-- A single place and a violation that is there if the place breaks a rule. -/
theorem single (h : ∀ g, p.Breaks g ↔ g = f ∧ b = true) :
    Finds [p] (findingIf b f.1 f.2) := by
  cases b with
  | true => exact .found ((h f).2 ⟨rfl, rfl⟩) .nil
  | false => exact .clean (fun g hg => by cases ((h g).1 hg).2) .nil

end Finds

/-! ## Surroundings -/

namespace Surroundings

variable {around : Surroundings}

theorem behind_append (marks more : List Mark) (around : Surroundings) :
    around.behind (marks ++ more) = (around.behind marks).behind more := by
  cases around <;> simp [behind]

@[simp] theorem function?_behind (marks : List Mark) :
    (around.behind marks).function? = around.function? := by
  cases around <;> rfl

@[simp] theorem class?_behind (marks : List Mark) :
    (around.behind marks).class? = around.class? := by
  cases around <;> rfl

@[simp] theorem initializing_behind (marks : List Mark) :
    (around.behind marks).initializing = around.initializing := by
  cases around with
  | nil => rfl
  | cons p outer => simp only [initializing, behind, List.takeWhile_cons]; split <;> rfl

theorem eq_classBody (h : around.class? = some c) :
    ∃ hasSuperclass, c = .classBody hasSuperclass := by
  have hc : c.isClass = true := List.find?_some h
  cases c with
  | classBody hasSuperclass => exact ⟨hasSuperclass, rfl⟩
  | _ => cases hc

/-- Marks that declare nothing leave it at what was declared. -/
theorem declares_behind {marks : List Mark} (hq : ∀ t, .declares t ∉ marks) (x : String) :
    (around.behind marks).Declares x ↔ around.Declares x := by
  cases around with
  | nil => rfl
  | cons p outer =>
    obtain ⟨c, before⟩ := p
    simp only [Declares, scope?, behind, List.find?_cons]
    cases c.isScope with
    | true => simp [hq]
    | false => rfl

/-- The place in an initializer is in the scope that the variable is in. -/
theorem declares_initializer (x y : String) (around : Surroundings) :
    Declares ((.initializer y, before) :: around) x ↔ around.Declares x := Iff.rfl

end Surroundings

theorem markSpots_append (marks more : List Mark) (around : Surroundings) :
    markSpots around (marks ++ more) =
      markSpots around marks ++ markSpots (around.behind marks) more := by
  induction marks generalizing around with
  | nil => cases around <;> simp [markSpots, Surroundings.behind]
  | cons m marks ih =>
    rw [List.cons_append, markSpots, ih, markSpots, List.append_assoc,
      ← Surroundings.behind_append, List.singleton_append]

/-! ## What the resolver keeps of the surroundings -/

variable {marks : List Mark}

namespace Construct

/-- The kind of function that a construct is for the resolver. -/
def functionKind : Construct → FunctionKind
  | method name => .ofMethod name
  | _ => .plain

def classKind : Construct → ClassKind
  | classBody true => .derived
  | _ => .base

end Construct

theorem Construct.functionKind_eq_initializer {c : Construct} :
    c.functionKind = .initializer ↔ c = .method "init" := by
  cases c with
  | method name =>
    simp only [functionKind, FunctionKind.ofMethod, method.injEq]
    split <;> simp [*]
  | _ => simp [functionKind]

/-- The kinds of the innermost function and of the innermost class. -/
structure Encloses (A : Enclosing) (around : Surroundings) : Prop where
  function : A.function = around.function?.map Construct.functionKind
  classKind : A.classKind = around.class?.map Construct.classKind

theorem Encloses.function_eq_none (h : Encloses A around) :
    A.function = none ↔ around.function? = none := by
  rw [h.function, Option.map_eq_none_iff]

theorem Encloses.function_eq_initializer (h : Encloses A around) :
    A.function = some .initializer ↔ around.function? = some (.method "init") := by
  rw [h.function]
  cases around.function? with
  | none => simp
  | some c => simp [Construct.functionKind_eq_initializer]

/-- What the resolver keeps agrees with what is around a place in an expression. -/
structure Sees (A : Enclosing) (scopes : List Scope) (around : Surroundings) : Prop extends
    Encloses A around where
  declares (x : String) : Scope.redeclares x scopes = true ↔ around.Declares x
  unready (x : String) : Scope.unready x scopes = true ↔
    around.Declares x ∧ x ∈ around.initializing

/-- What the resolver keeps agrees with what is around a statement, which stands in a local scope or
around which there is none. -/
structure Holds (A : Enclosing) (scopes : List Scope) (around : Surroundings) : Prop extends
    Sees A scopes around where
  local_iff : scopes = [] ↔ around = []
  inScope : ∀ p ∈ around.head?, p.1.isScope = true

theorem Sees.behind (h : Sees A scopes around) (hq : ∀ t, .declares t ∉ marks) :
    Sees A scopes (around.behind marks) where
  function := by simpa using h.function
  classKind := by simpa using h.classKind
  declares x := by rw [Surroundings.declares_behind hq, h.declares]
  unready x := by
    rw [Surroundings.declares_behind hq, Surroundings.initializing_behind, h.unready]

theorem Holds.behind (h : Holds A scopes around) (hq : ∀ t, .declares t ∉ marks) :
    Holds A scopes (around.behind marks) where
  toSees := h.toSees.behind hq
  local_iff := h.local_iff.trans (by cases around <;> simp [Surroundings.behind])
  inScope := by
    have hin := h.inScope
    cases around with
    | nil => exact hin
    | cons p outer => simpa [Surroundings.behind] using hin

theorem Surroundings.initializing_cons_initializer (x : String) (around : Surroundings) :
    initializing ((.initializer x, before) :: around) = x :: around.initializing := rfl

theorem Surroundings.declares_scope {around : Surroundings} (hc : c.isScope = true) (x : String) :
    Declares ((c, before) :: around) x ↔ ∃ t, .declares t ∈ before ∧ t.lexeme = x := by
  simp [Declares, scope?, hc]

/-- No statement stands in an initializer of its own scope. -/
theorem Holds.initializing_eq (h : Holds A scopes around) : around.initializing = [] := by
  have hin := h.inScope
  cases around with
  | nil => rfl
  | cons p outer =>
    have hp : p.1.isScope = true := hin p rfl
    simp [Surroundings.initializing, hp]

theorem Holds.unready_eq (h : Holds A scopes around) (x : String) :
    Scope.unready x scopes = false := by
  rw [← Bool.not_eq_true, h.unready, h.initializing_eq]
  simp

/-- A declared name is in the innermost scope. -/
theorem Holds.declare (h : Holds A scopes around) (t : Token) (x : String) :
    Scope.redeclares x (Scope.declare t.lexeme scopes) = true ↔
      (around.behind [.declares t]).Declares x := by
  have hlocal := h.local_iff
  have hin := h.inScope
  have hdeclares := h.declares x
  cases around with
  | nil =>
    obtain rfl := hlocal.2 rfl
    exact hdeclares
  | cons p outer =>
    obtain ⟨c, before⟩ := p
    have hc : c.isScope = true := hin _ rfl
    cases scopes with
    | nil => cases hlocal.1 rfl
    | cons scope rest =>
      simp only [Surroundings.declares_scope hc, Scope.redeclares] at hdeclares
      simp only [Surroundings.behind, Surroundings.declares_scope hc, Scope.declare,
        Scope.redeclares, Bindings.contains_insert, Bool.or_eq_true, decide_eq_true_eq, hdeclares,
        List.mem_append, List.mem_singleton, Mark.declares.injEq]
      grind

theorem Scope.redeclares_introduce (t : Token) (scopes : List Scope) (x : String) :
    redeclares x (introduce t scopes) = redeclares x (declare t.lexeme scopes) := by
  cases scopes with
  | nil => rfl
  | cons scope rest => simp [introduce, declare, define, redeclares, Bindings.contains_insert]

theorem Scope.unready_introduce (t : Token) {scopes : List Scope} {x : String}
    (h : unready x scopes = false) : unready x (introduce t scopes) = false := by
  cases scopes with
  | nil => rfl
  | cons scope rest =>
    simp only [unready, decide_eq_false_iff_not, introduce_cons, get?_add] at h ⊢
    split
    · simp
    · exact h

theorem Scope.unready_declare (t : Token) {scopes : List Scope} {x : String}
    (h : unready x scopes = false) :
    unready x (declare t.lexeme scopes) = true ↔
      redeclares x (declare t.lexeme scopes) = true ∧ x = t.lexeme := by
  cases scopes with
  | nil => simp [unready, declare, redeclares]
  | cons scope rest =>
    simp only [unready, decide_eq_false_iff_not, declare, redeclares, decide_eq_true_eq,
      Bindings.contains_insert, Bool.or_eq_true] at h ⊢
    by_cases hx : x = t.lexeme
    · simp [hx, Bindings.get?_insert_self]
    · simp [hx, Bindings.get?_insert_of_ne hx, h]

/-- Behind a declaration whose name may be read at once. -/
theorem Holds.introduce (h : Holds A scopes around) (t : Token) :
    Holds A (Scope.introduce t scopes) (around.behind [.declares t]) where
  function := by simpa using h.function
  classKind := by simpa using h.classKind
  declares x := by rw [Scope.redeclares_introduce, h.declare]
  unready x := by
    rw [Scope.unready_introduce t (h.unready_eq x), Surroundings.initializing_behind,
      h.initializing_eq]
    simp
  local_iff := by
    have hlocal := h.local_iff
    cases scopes <;> cases around <;> simp_all [Surroundings.behind]
  inScope := by
    have hin := h.inScope
    cases around with
    | nil => exact hin
    | cons p outer => simpa [Surroundings.behind] using hin

/-- In the initializer of a variable. -/
theorem Holds.initializer (h : Holds A scopes around) (t : Token) :
    Sees A (Scope.declare t.lexeme scopes)
      ((.initializer t.lexeme, []) :: around.behind [.declares t]) where
  function := h.function.trans (congrArg _ (Surroundings.function?_behind _).symm)
  classKind := h.classKind.trans (congrArg _ (Surroundings.class?_behind _).symm)
  declares x := by rw [Surroundings.declares_initializer, h.declare]
  unready x := by
    rw [Scope.unready_declare t (h.unready_eq x), Surroundings.declares_initializer, h.declare]
    simp [Surroundings.initializing_cons_initializer, h.initializing_eq]

/-- At the start of a new scope. -/
theorem Encloses.enter (h : Encloses A ((c, []) :: around)) (hc : c.isScope = true)
    (scopes : List Scope) : Holds A ([] :: scopes) ((c, []) :: around) where
  toEncloses := h
  declares x := by simp [Scope.redeclares, Surroundings.declares_scope hc, Bindings.contains,
    Bindings.get?]
  unready x := by simp [Scope.unready, Surroundings.declares_scope hc, Bindings.get?]
  local_iff := by simp
  inScope := by simpa using hc

/-! ## Expressions -/

/-- The marks declare nothing, and the resolver finds the violations among them. -/
structure Examines (A : Enclosing) (scopes : List Scope) (marks : List Mark)
    (fs : List Finding) : Prop where
  quiet (t : Token) : .declares t ∉ marks
  finds : ∀ {around}, Sees A scopes around → Finds (markSpots around marks) fs

namespace Examines

theorem nil : Examines A scopes [] [] := ⟨fun _ => List.not_mem_nil, fun _ => .nil⟩

theorem append (h : Examines A scopes marks fs) (h' : Examines A scopes more gs) :
    Examines A scopes (marks ++ more) (fs ++ gs) where
  quiet t ht := (List.mem_append.1 ht).elim (h.quiet t) (h'.quiet t)
  finds hs := by
    rw [markSpots_append]
    exact (h.finds hs).append (h'.finds (hs.behind h.quiet))

theorem reads (r : Reference) : Examines A scopes [.reads r.name] (r.readFindings scopes) where
  quiet t := by simp
  finds hs := .single (f := (r.name, .ownInitializer)) fun g => by
    rw [Spot.breaks_reads_iff, hs.unready]

theorem this (keyword : Token) : Examines A scopes [.this keyword]
    (findingIf A.classKind.isNone keyword .thisOutsideClass) where
  quiet t := by simp
  finds hs := .single (f := (keyword, .thisOutsideClass)) fun g => by
    rw [Spot.breaks_this_iff, hs.classKind, Option.isNone_map, Option.isNone_iff_eq_none]

theorem super (keyword : Token) :
    Examines A scopes [.super keyword] (A.superFindings keyword) where
  quiet t := by simp
  finds {around} hs := by
    have hkind := hs.classKind
    cases hc : around.class? with
    | none =>
      rw [hc] at hkind
      simp only [Enclosing.superFindings, hkind, Option.map_none]
      exact .found (.superOutsideClass rfl hc) .nil
    | some c =>
      obtain ⟨hasSuperclass, rfl⟩ := Surroundings.eq_classBody hc
      rw [hc] at hkind
      cases hasSuperclass with
      | false =>
        simp only [Enclosing.superFindings, hkind, Option.map_some, Construct.classKind]
        exact .found (.superWithoutSuperclass rfl hc) .nil
      | true =>
        simp only [Enclosing.superFindings, hkind, Option.map_some, Construct.classKind]
        exact .clean (fun f hf => by cases hf <;> simp_all) .nil

theorem superclass (className : Token) (r : Reference) :
    Examines A scopes (r.superclassMarks className) (r.resolveSuperclass scopes className).2 :=
  have hinherits : Examines A scopes [.inherits className r.name]
      (findingIf (className.lexeme = r.name.lexeme) r.name .selfInheritance) :=
    { quiet := by simp
      finds := fun _ => .single (f := (r.name, .selfInheritance)) fun g => by
        rw [Spot.breaks_inherits_iff, decide_eq_true_eq] }
  hinherits.append (.reads r)

theorem returns (keyword : Token) (hasValue : Bool) :
    Examines A scopes [.returns keyword hasValue] (A.returnFindings keyword hasValue) where
  quiet t := by simp
  finds {around} hs := by
    simp only [Enclosing.returnFindings]
    cases hf : A.function with
    | none =>
      simp only [reduceCtorEq, decide_false, Bool.and_false]
      exact .found (.topLevelReturn rfl (hs.function_eq_none.1 hf)) .nil
    | some kind =>
      refine .single (f := (keyword, .initializerValue)) fun g => ?_
      have hsome : around.function? ≠ none := fun hno => by
        cases hf.symm.trans (hs.function_eq_none.2 hno)
      simp [Spot.breaks_returns_iff, ← hs.function_eq_initializer, hsome, hf]

end Examines

mutual
theorem Expr.examines (A : Enclosing) (scopes : List Scope) : ∀ e : Expr,
    Examines A scopes e.marks (e.resolve A scopes).2
  | .missing | .literal _ => .nil
  | .assign _ value => value.examines A scopes
  | .binary left _ right | .logical left _ right =>
    (left.examines A scopes).append (right.examines A scopes)
  | .call callee _ arguments => (callee.examines A scopes).append (exprs_examine A scopes arguments)
  | .get inner _ | .grouping inner | .unary _ inner => inner.examines A scopes
  | .set object _ value => (value.examines A scopes).append (object.examines A scopes)
  | .super keyword _ => .super keyword.name
  | .this keyword => by
    have hthis : Examines A scopes [.this keyword.name] _ := .this keyword.name
    simp only [Expr.resolve, Expr.marks]
    split
    · simpa [findingIf, *] using hthis
    · simpa [findingIf, *] using hthis
  | .variable target => .reads target
theorem exprs_examine (A : Enclosing) (scopes : List Scope) : ∀ es : List Expr,
    Examines A scopes (exprMarks es) (resolveExprs A scopes es).2
  | [] => .nil
  | e :: es => (e.examines A scopes).append (exprs_examine A scopes es)
end

theorem Expr.option_examines (A : Enclosing) (scopes : List Scope) (o : Option Expr) :
    Examines A scopes (optionMarks o) (resolveOption A scopes o).2 := by
  cases o with
  | none => exact .nil
  | some e => exact e.examines A scopes

/-! ## Statements -/

/-- The resolver finds the violations among the marks and goes on behind them with some scopes. -/
structure Covers (A : Enclosing) (around : Surroundings) (marks : List Mark) (fs : List Finding)
    (scopes : List Scope) : Prop where
  finds : Finds (markSpots around marks) fs
  holds : Holds A scopes (around.behind marks)

namespace Covers

theorem nil (h : Holds A scopes around) : Covers A around [] [] scopes :=
  ⟨.nil, h.behind fun _ => List.not_mem_nil⟩

theorem append (h : Covers A around marks fs scopes)
    (h' : Covers A (around.behind marks) more gs scopes') :
    Covers A around (marks ++ more) (fs ++ gs) scopes' where
  finds := by
    rw [markSpots_append]
    exact h.finds.append h'.finds
  holds := by
    rw [Surroundings.behind_append]
    exact h'.holds

theorem quiet (h : Holds A scopes around) (hm : Examines A scopes marks fs) :
    Covers A around marks fs scopes :=
  ⟨hm.finds h.toSees, h.behind hm.quiet⟩

theorem declares (h : Holds A scopes around) (t : Token) :
    Covers A around [.declares t] (Scope.declareFindings t scopes) (Scope.introduce t scopes) where
  finds := .single (f := (t, .redeclared)) fun g => by
    rw [Spot.breaks_declares_iff, h.declares]
  holds := h.introduce t

theorem parameters (h : Holds A scopes around) (ps : List Token) :
    Covers A around (ps.map .declares) (Scope.introduceAll ps scopes).2
      (Scope.introduceAll ps scopes).1 := by
  induction ps generalizing scopes around with
  | nil => exact .nil h
  | cons p ps ih => exact (Covers.declares h p).append (ih (h.introduce p))

/-- Behind a construct, the scopes are those that were before it. -/
theorem inside (h : Holds A scopes around) (hf : Finds (markSpots ((c, []) :: around) marks) fs) :
    Covers A around [.inside c marks] fs scopes where
  finds := by simpa [markSpots, Mark.spots] using hf
  holds := h.behind fun t => by simp

end Covers

mutual
theorem Stmt.covers (A : Enclosing) : ∀ (s : Stmt) {scopes : List Scope} {around : Surroundings},
    Holds A scopes around →
      Covers A around s.marks (s.resolve A scopes).findings (s.resolve A scopes).scopes
  | .missing, _, _, h => .nil h
  | .block body, scopes, around, h =>
    have henter : Encloses A ((.block, []) :: around) := ⟨h.function, h.classKind⟩
    .inside h (stmts_cover A body (henter.enter rfl scopes)).finds
  | .classDecl name superclass methods, scopes, around, h => by
    have hname := Covers.declares h name
    simp only [Stmt.resolve, Stmt.marks, List.append_assoc]
    refine hname.append ?_
    cases superclass with
    | none => exact .inside hname.holds (methods_find methods rfl)
    | some r =>
      have hparent := Covers.quiet hname.holds (Examines.superclass name r)
      exact hparent.append (.inside hparent.holds (methods_find methods rfl))
  | .expression value, scopes, _, h => .quiet h (value.examines A scopes)
  | .print value, scopes, _, h => .quiet h (value.examines A scopes)
  | .function f, scopes, _, h =>
    have hname := h.introduce f.name
    (Covers.declares h f.name).append (.inside hname (f.finds ⟨rfl, hname.classKind⟩ rfl))
  | .ifElse condition thenBranch elseBranch, scopes, _, h => by
    have hcondition := Covers.quiet h (condition.examines A scopes)
    have hthen := thenBranch.covers A hcondition.holds
    simp only [Stmt.resolve, Stmt.marks, List.append_assoc]
    exact hcondition.append (hthen.append (elseBranch.covers A hthen.holds))
  | .returning keyword value, scopes, _, h =>
    .quiet h ((Examines.returns keyword value.isSome).append (Expr.option_examines A scopes value))
  | .varDecl name initializer, scopes, _, h =>
    have hin := (Expr.option_examines A (Scope.declare name.lexeme scopes) initializer).finds
      (h.initializer name)
    (Covers.declares h name).append (.inside (h.introduce name) hin)
  | .whileLoop condition body, scopes, _, h =>
    have hcondition := Covers.quiet h (condition.examines A scopes)
    hcondition.append (body.covers A hcondition.holds)
theorem Function.finds {A : Enclosing} {c : Construct} : ∀ (f : Function) {scopes : List Scope}
    {around : Surroundings}, Encloses A ((c, []) :: around) → c.isScope = true →
      Finds (markSpots ((c, []) :: around) f.marks) (f.resolve A scopes).2
  | .mk _ ps body, scopes, _, h, hc =>
    have hps := Covers.parameters (h.enter hc scopes) ps
    (hps.append (stmts_cover A body hps.holds)).finds
theorem stmts_cover (A : Enclosing) : ∀ (ss : List Stmt) {scopes : List Scope}
    {around : Surroundings}, Holds A scopes around →
      Covers A around (stmtMarks ss) (resolveStmts A scopes ss).findings
        (resolveStmts A scopes ss).scopes
  | [], _, _, h => .nil h
  | s :: ss, _, _, h => (s.covers A h).append (stmts_cover A ss (s.covers A h).holds)
theorem methods_find {A : Enclosing} {scopes : List Scope} : ∀ (fs : List Function)
    {around : Surroundings}, A.classKind = around.class?.map Construct.classKind →
      Finds (markSpots around (methodMarks fs)) (resolveMethods A scopes fs).2
  | [], _, _ => .nil
  | f :: fs, around, h => by
    have hf : Finds (markSpots ((.method f.name.lexeme, []) :: around) f.marks)
        (f.resolve ⟨some (.ofMethod f.name.lexeme), A.classKind⟩ scopes).2 :=
      f.finds ⟨rfl, h⟩ rfl
    simp only [methodMarks, markSpots, Mark.spots, resolveMethods]
    exact hf.append (methods_find fs (by rw [Surroundings.class?_behind, h]))
end

/-! ## Programs -/

/-- The resolver reports exactly the violations: going over the places of a program in order, it
finds one for each place that breaks a rule, which is the only rule that the place breaks, and none
for the others. So a program is accepted exactly if no place breaks a rule. -/
theorem resolver_reports_exactly_the_violations (program : List Stmt) :
    (∃ findings, (resolveProgram program).2 = findings.map Finding.report ∧
      Finds (programSpots program) findings) ∧
    (∀ (p : Spot) (f g : Finding), p.Breaks f → p.Breaks g → g = f) ∧
    ((resolveProgram program).2 = [] ↔ ∀ p ∈ programSpots program, ∀ f, ¬p.Breaks f) := by
  have htop : Holds .topLevel [] [] :=
    { function := rfl
      classKind := rfl
      declares := by simp [Scope.redeclares, Surroundings.Declares, Surroundings.scope?]
      unready := by simp [Scope.unready, Surroundings.initializing]
      local_iff := by simp
      inScope := by simp }
  have hfinds := (stmts_cover .topLevel program htop).finds
  exact ⟨⟨_, rfl, hfinds⟩, fun _ _ _ => Spot.Breaks.unique,
    List.map_eq_nil_iff.trans hfinds.eq_nil_iff⟩

/-- `class A { init() { fun f() { return this; } return this; } }`: only the second `return` has an
initializer for its innermost function. -/
example :
    let word (kind : TokenKind) (text : String) (column : Nat) : Token :=
      ⟨kind, text, none, 1, column⟩
    let this (column : Nat) : Expr := .this ⟨word .kwThis "this" column, none⟩
    let return₁ := word .kwReturn "return" 31
    let return₂ := word .kwReturn "return" 46
    let f : Function := .mk (word .identifier "f" 25) [] [.returning return₁ (some (this 38))]
    let init : Function := .mk (word .identifier "init" 11) []
      [.function f, .returning return₂ (some (this 53))]
    (resolveProgram [.classDecl (word .identifier "A" 7) none [init]]).2 =
      [Finding.report (return₂, .initializerValue)] := by
  decide +kernel

end LoxLang
