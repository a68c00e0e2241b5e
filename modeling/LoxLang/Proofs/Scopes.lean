import LoxLang.Scope.Resolve
import LoxLang.Proofs.WellFormed

/-!
# How resolution moves the scopes

A statement introduces the names that it declares, one after the other, into the innermost scope
(`introduceEach`) and changes no other scope (`Stmt.scopes_resolve`). A piece without findings
declares each name once (`Scope.Accepts`).
-/

namespace LoxLang

namespace Scope

/-- Whether all names of a scope may be read. -/
def Ready (scope : Scope) : Prop := ∀ x, scope.get? x ≠ some false

theorem ready_nil : Ready [] := fun _ => nofun

/-- A scope with one more name that may be read. -/
def add (name : Token) (scope : Scope) : Scope :=
  (scope.insert name.lexeme false).insert name.lexeme true

/-- Introduces names in order. -/
def introduceEach (names : List Token) (scopes : List Scope) : List Scope :=
  names.foldl (fun scopes name => introduce name scopes) scopes

theorem get?_add (name : Token) (scope : Scope) (x : String) :
    (scope.add name).get? x = if x = name.lexeme then some true else scope.get? x := by
  unfold add
  split
  · next h => rw [h, Bindings.get?_insert_self]
  · next h => rw [Bindings.get?_insert_of_ne h, Bindings.get?_insert_of_ne h]

theorem contains_add (name : Token) (scope : Scope) (x : String) :
    (scope.add name).contains x ↔ x = name.lexeme ∨ scope.contains x := by
  unfold add
  simp [Bindings.contains_insert]

theorem Ready.add (h : Ready scope) : Ready (scope.add name) := by
  intro x
  rw [get?_add]
  split
  · simp
  · exact h x

theorem get?_of_contains (h : Ready scope) (hx : scope.contains x) : scope.get? x = some true := by
  obtain ⟨b, hb⟩ := Option.isSome_iff_exists.1 hx
  cases b with
  | true => exact hb
  | false => exact absurd hb (h x)

@[simp] theorem introduce_nil (name : Token) : introduce name [] = [] := rfl

@[simp] theorem introduce_cons (name : Token) (scope : Scope) (outer : List Scope) :
    introduce name (scope :: outer) = scope.add name :: outer := rfl

@[simp] theorem introduceEach_nil (scopes : List Scope) : introduceEach [] scopes = scopes := rfl

@[simp] theorem introduceEach_cons (name : Token) (names : List Token) (scopes : List Scope) :
    introduceEach (name :: names) scopes = introduceEach names (introduce name scopes) := rfl

theorem introduceEach_append (names more : List Token) (scopes : List Scope) :
    introduceEach (names ++ more) scopes = introduceEach more (introduceEach names scopes) :=
  List.foldl_append

/-- Only the innermost scope is changed; it has the names added. -/
theorem introduceEach_scope (names : List Token) (scope : Scope) (outer : List Scope) :
    ∃ inner : Scope, introduceEach names (scope :: outer) = inner :: outer ∧
      (Ready scope → Ready inner) ∧
      ∀ x, inner.contains x ↔ (∃ t ∈ names, t.lexeme = x) ∨ scope.contains x := by
  induction names generalizing scope with
  | nil => exact ⟨scope, rfl, id, by simp⟩
  | cons t names ih =>
    obtain ⟨inner, h, hready, hnames⟩ := ih (scope.add t)
    refine ⟨inner, h, fun hr => hready hr.add, fun x => ?_⟩
    rw [hnames, contains_add]
    simp only [List.mem_cons, exists_eq_or_imp, eq_comm (a := x)]
    grind

theorem introduceAll_fst (names : List Token) (scopes : List Scope) :
    (introduceAll names scopes).1 = introduceEach names scopes := by
  induction names generalizing scopes with
  | nil => rfl
  | cons t names ih => exact ih _

theorem distance?_nil (name : String) : distance? [] name = none := rfl

theorem distance?_cons (scope : Scope) (outer : List Scope) (name : String) :
    distance? (scope :: outer) name =
      if scope.contains name then some 0 else (distance? outer name).map (· + 1) := by
  simp [distance?, List.findIdx?_cons]

/-- The scope so many scopes out has a name. -/
def HoldsAt (scopes : List Scope) (x : String) (d : Nat) : Prop :=
  ∃ scope : Scope, scopes[d]? = some scope ∧ scope.contains x = true

theorem distance?_eq_some_iff :
    distance? scopes x = some d ↔ HoldsAt scopes x d ∧ ∀ e < d, ¬HoldsAt scopes x e := by
  simp only [distance?, List.findIdx?_eq_some_iff_getElem, HoldsAt]
  constructor
  · rintro ⟨hd, hx, hbelow⟩
    refine ⟨⟨_, List.getElem?_eq_getElem hd, hx⟩, ?_⟩
    rintro e he ⟨scope, hs, hx'⟩
    obtain ⟨_, rfl⟩ := List.getElem?_eq_some_iff.1 hs
    exact hbelow e he hx'
  · rintro ⟨⟨scope, hs, hx⟩, hbelow⟩
    obtain ⟨hd, rfl⟩ := List.getElem?_eq_some_iff.1 hs
    exact ⟨hd, hx, fun e he h => hbelow e he ⟨_, List.getElem?_eq_getElem (Nat.lt_trans he hd), h⟩⟩

theorem distance?_eq_none_iff : distance? scopes x = none ↔ ∀ d, ¬HoldsAt scopes x d := by
  simp only [distance?, List.findIdx?_eq_none_iff, List.mem_iff_getElem?, HoldsAt]
  constructor
  · rintro h d ⟨scope, hs, hx⟩
    rw [h scope ⟨d, hs⟩] at hx
    cases hx
  · rintro h scope ⟨d, hs⟩
    exact Bool.eq_false_iff.2 fun hx => h d ⟨scope, hs, hx⟩

/-- The nearest scope with a name is no farther than any other one that has it. -/
theorem le_of_distance? {scope : Scope} (h : distance? scopes x = some d)
    (hs : scopes[e]? = some scope) (hx : scope.contains x = true) : d ≤ e :=
  Nat.le_of_not_lt fun he => (distance?_eq_some_iff.1 h).2 e he ⟨scope, hs, hx⟩

theorem contains_of_distance? (h : distance? scopes x = some d) :
    ∃ scope, scopes[d]? = some scope ∧ scope.contains x :=
  (distance?_eq_some_iff.1 h).1

end Scope

theorem findingIf_eq_nil {c : Bool} {t : Token} {v : Violation} :
    findingIf c t v = [] ↔ c = false := by
  cases c <;> simp [findingIf]

@[simp] theorem Function.name_resolve (around : Enclosing) (scopes : List Scope) (f : Function) :
    (f.resolve around scopes).1.name = f.name := by
  cases f
  rfl

/-! ## What a statement declares -/

theorem Stmt.declared_resolve (around : Enclosing) :
    ∀ (s : Stmt) (scopes : List Scope), (s.resolve around scopes).tree.declared = s.declared
  | .missing, _ | .block _, _ | .classDecl .., _ | .expression _, _ | .print _, _
  | .returning .., _ | .varDecl .., _ => rfl
  | .function (.mk ..), _ => rfl
  | .ifElse c t e, scopes => by
    simp only [Stmt.resolve, Stmt.declared]
    rw [declared_resolve around t, declared_resolve around e]
  | .whileLoop c b, scopes => by
    simp only [Stmt.resolve, Stmt.declared]
    rw [declared_resolve around b]

theorem declaredNames_resolve (around : Enclosing) (ss : List Stmt) (scopes : List Scope) :
    declaredNames (resolveStmts around scopes ss).tree = declaredNames ss := by
  induction ss generalizing scopes with
  | nil => rfl
  | cons s ss ih =>
    simp only [resolveStmts, declaredNames_cons]
    rw [Stmt.declared_resolve, ih]

/-- Behind a statement, the names that it declares are introduced. -/
theorem Stmt.scopes_resolve (around : Enclosing) :
    ∀ (s : Stmt) (scopes : List Scope),
      (s.resolve around scopes).scopes = Scope.introduceEach s.declared scopes
  | .missing, _ | .block _, _ | .classDecl .., _ | .expression _, _ | .print _, _
  | .returning .., _ | .varDecl .., _ => rfl
  | .function (.mk ..), _ => rfl
  | .ifElse c t e, scopes => by
    simp only [Stmt.resolve, Stmt.declared, Scope.introduceEach_append]
    rw [scopes_resolve around e, scopes_resolve around t]
  | .whileLoop c b, scopes => by
    simp only [Stmt.resolve, Stmt.declared]
    rw [scopes_resolve around b]

/-! ## No name twice -/

/-- Names that can be introduced into a scope one after the other: they are different, and the scope
has none of them. -/
structure Scope.Accepts (scope : Scope) (names : List Token) : Prop where
  nodup : (names.map Token.lexeme).Nodup
  free : ∀ t ∈ names, ¬scope.contains t.lexeme

namespace Scope.Accepts

theorem nil (scope : Scope) : scope.Accepts [] := ⟨List.nodup_nil, List.forall_mem_nil _⟩

theorem singleton {scope : Scope} {t : Token} {outer : List Scope}
    (h : declareFindings t (scope :: outer) = []) : scope.Accepts [t] := by
  refine ⟨by simp, List.forall_mem_singleton.2 ?_⟩
  simpa [declareFindings, findingIf_eq_nil, redeclares] using h

theorem append {scope inner : Scope} {names more : List Token} (h : scope.Accepts names)
    (hinner : ∀ x, inner.contains x ↔ (∃ t ∈ names, t.lexeme = x) ∨ scope.contains x)
    (h' : inner.Accepts more) : scope.Accepts (names ++ more) := by
  refine ⟨?_, fun t ht => ?_⟩
  · rw [List.map_append, List.nodup_append]
    refine ⟨h.nodup, h'.nodup, ?_⟩
    rintro x hx _ hy rfl
    obtain ⟨t, ht, rfl⟩ := List.mem_map.1 hx
    obtain ⟨u, hu, he⟩ := List.mem_map.1 hy
    exact h'.free u hu ((hinner _).2 (.inl ⟨t, ht, he.symm⟩))
  · rcases List.mem_append.1 ht with ht | ht
    · exact h.free t ht
    · exact fun hc => h'.free t ht ((hinner _).2 (.inr hc))

end Scope.Accepts

/-- A statement without findings declares no name twice, and none that the scope has already. -/
theorem Stmt.accepts_declared : ∀ (s : Stmt) {scope : Scope},
    (s.resolve around (scope :: outer)).findings = [] → scope.Accepts s.declared
  | .missing, _, _ | .block _, _, _ | .expression _, _, _ | .print _, _, _ | .returning .., _, _ =>
    .nil _
  | .classDecl name superclass methods, scope, h => by
    simp only [Stmt.resolve, List.append_eq_nil_iff] at h
    exact .singleton h.1.1
  | .function f, scope, h => by
    simp only [Stmt.resolve, List.append_eq_nil_iff] at h
    exact .singleton h.1
  | .varDecl name initializer, scope, h => by
    simp only [Stmt.resolve, List.append_eq_nil_iff] at h
    exact .singleton h.1
  | .ifElse c t e, scope, h => by
    obtain ⟨inner, hi, -, hnames⟩ := Scope.introduceEach_scope t.declared scope outer
    simp only [Stmt.resolve, List.append_eq_nil_iff, Stmt.scopes_resolve, hi] at h
    exact (t.accepts_declared h.1.2).append hnames (e.accepts_declared h.2)
  | .whileLoop c b, scope, h => by
    simp only [Stmt.resolve, List.append_eq_nil_iff] at h
    exact b.accepts_declared h.2

/-- Statements without findings declare no name twice, and none that the scope has already. -/
theorem accepts_declaredNames {scope : Scope}
    (h : (resolveStmts around (scope :: outer) ss).findings = []) :
    scope.Accepts (declaredNames ss) := by
  induction ss generalizing scope with
  | nil => exact .nil scope
  | cons s ss ih =>
    obtain ⟨inner, hi, -, hnames⟩ := Scope.introduceEach_scope s.declared scope outer
    simp only [resolveStmts, List.append_eq_nil_iff, Stmt.scopes_resolve, hi] at h
    exact (s.accepts_declared h.1).append hnames (ih h.2)

/-- Parameters without findings are distinct, and none is a name that the scope has already. -/
theorem accepts_parameters {names : List Token} {scope : Scope} {outer : List Scope}
    (h : (Scope.introduceAll names (scope :: outer)).2 = []) : scope.Accepts names := by
  induction names generalizing scope with
  | nil => exact .nil scope
  | cons t names ih =>
    simp only [Scope.introduceAll, List.append_eq_nil_iff, Scope.introduce_cons] at h
    have hnames (x : String) : (scope.add t).contains x ↔
        (∃ u ∈ [t], u.lexeme = x) ∨ scope.contains x := by
      simp only [Scope.contains_add, List.mem_singleton, exists_eq_left, eq_comm (a := x)]
    exact (Scope.Accepts.singleton h.1).append hnames (ih h.2)

/-- The parameters and the body of a function without findings share a scope. -/
theorem accepts_body {around : Enclosing} {Γ : List Scope} {name : Token} {ps : List Token}
    {ss : List Stmt} (h : ((Function.mk name ps ss).resolve around Γ).2 = []) :
    Scope.Accepts [] (ps ++ declaredNames ss) := by
  obtain ⟨inner, hi, -, hnames⟩ := Scope.introduceEach_scope ps [] Γ
  simp only [Function.resolve, List.append_eq_nil_iff, Scope.introduceAll_fst, hi] at h
  exact (accepts_parameters h.1).append hnames (accepts_declaredNames h.2)

end LoxLang
