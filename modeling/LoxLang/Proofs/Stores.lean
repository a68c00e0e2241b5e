import LoxLang.Proofs.Runs

/-!
# Who stores what

Every store that an accepted program makes into a frame is made by a declaration of the frame's
region, by an assignment that is bound to the region, or by what the region is for: a receiver or a
superclass (`Traced`, `AllTraced`).
-/

namespace LoxLang

/-- A store with the part of an accepted program that makes it. -/
inductive Traced (V : Node → Site → Prop) (R : List Region) : Storing → Prop where
  | declaration : R[i]? = some ρ → (ρ = .globals ∨ t ∈ ρ.declared) → IsIdentifier t.lexeme →
      Traced V R ⟨i, t.lexeme, v, .declaration t⟩
  | assignment : V (.expr (.assign r e)) σ → (r.resolve σ.scopes).hops = some d →
      σ.regions[d]? = some ρ → R[i]? = some ρ →
      Traced V R ⟨i, r.name.lexeme, v, .assignment (r.resolve σ.scopes)⟩
  | global : V (.expr (.assign r e)) σ → (r.resolve σ.scopes).hops = none →
      Traced V R ⟨Heap.globals, r.name.lexeme, v, .assignment (r.resolve σ.scopes)⟩
  | receiver : R[i]? = some (.receiver f) → Traced V R ⟨i, "this", v, .receiver⟩
  | superclass : R[i]? = some (.superclass name fs) → Traced V R ⟨i, "super", v, .superclass⟩

/-- The globals are searched nowhere but in their own frame. -/
theorem Frames.holder?_root {fs : Frames Value} (h : fs.frame? i = some ⟨none, bs⟩)
    (hj : fs.holder? i x = some j) : j = i := by
  simp only [Frames.holder?, Frames.holderWithin, h] at hj
  split at hj
  · exact (Option.some.inj hj).symm
  · cases hj

/-- All stores among events are traced. -/
def AllTraced (V : Node → Site → Prop) (R : List Region) (es : List Event) : Prop :=
  ∀ e ∈ Event.storings es, Traced V R e

variable {V : Node → Site → Prop} {R : List Region} {m : Machine} {σ : Site}

theorem Traced.append (h : Traced V R e) (R' : List Region) : Traced V (R ++ R') e := by
  have hmore {i : Nat} {ρ : Region} (hρ : R[i]? = some ρ) : (R ++ R')[i]? = some ρ := by
    rw [List.getElem?_append_left (List.getElem?_eq_some_iff.1 hρ).1, hρ]
  cases h with
  | declaration hi ht hid => exact .declaration (hmore hi) ht hid
  | assignment hv hd hσ hi => exact .assignment hv hd hσ (hmore hi)
  | global hv hd => exact .global hv hd
  | receiver hi => exact .receiver (hmore hi)
  | superclass hi => exact .superclass (hmore hi)

/-- The parameters of a visited function are named by identifiers. -/
theorem Walked.parameters (hw : Walked V) (hf : V (.function f) σ) :
    ∀ p ∈ (σ.function f).parameters, IsIdentifier p.lexeme := by
  obtain ⟨name, ps, ss⟩ := f
  have hwf := (hw.fits hf).wellFormed
  simp only [Node.WellFormed, Function.WellFormed] at hwf
  rw [Site.function_mk]
  exact hwf.2.1

theorem Callable.parameters (hc : Callable V R h c) (hw : Walked V) :
    ∀ p ∈ c.declaration.parameters, IsIdentifier p.lexeme := by
  cases hc with
  | intro hf => exact hw.parameters hf

theorem Method.parameters (hc : Method V R h c) (hw : Walked V) :
    ∀ p ∈ c.declaration.parameters, IsIdentifier p.lexeme := by
  cases hc with
  | intro hf => exact hw.parameters hf

namespace AllTraced

theorem nil : AllTraced V R [] := List.forall_mem_nil _

theorem append (h : AllTraced V R es) (h' : AllTraced V R es') : AllTraced V R (es ++ es') := by
  intro e he
  rw [Event.storings_append] at he
  rcases List.mem_append.1 he with he | he
  · exact h e he
  · exact h' e he

theorem cons_made (h : AllTraced V R es) : AllTraced V R (.made outer ρ :: es) := h

theorem cons_stored (he : Traced V R e) (h : AllTraced V R es) :
    AllTraced V R (.stored e :: es) := List.forall_mem_cons.2 ⟨he, h⟩

theorem more (h : AllTraced V R es) (R' : List Region) : AllTraced V (R ++ R') es :=
  fun e he => (h e he).append R'

/-- A frame of a site is one of a region that declares what is declared there. -/
theorem declare (hh : HeapOk V R h) (hm : Mirrors R h.frames lacking i Γ ρs)
    (ht : ∀ ρ ∈ ρs.head?, t ∈ ρ.declared) (hid : IsIdentifier t.lexeme) (v : Value) :
    AllTraced V R [Event.declare i t v] := by
  refine cons_stored ?_ nil
  cases hm with
  | globals => exact .declaration hh.region (.inl rfl) hid
  | inner _ hρ => exact .declaration hρ (.inr (ht _ rfl)) hid

theorem binding (hi : R[n]? = some (.receiver c.declaration)) (receiver : Value) :
    AllTraced V R (Event.binding n c receiver) :=
  cons_made (cons_stored (.receiver hi) nil)

theorem calling (hi : R[n]? = some (.call c.declaration))
    (hps : ∀ p ∈ c.declaration.parameters, IsIdentifier p.lexeme) (arguments : List Value) :
    AllTraced V R (Event.calling n c arguments) := by
  refine cons_made fun e he => ?_
  obtain ⟨_, hev, he⟩ := List.mem_filterMap.1 he
  obtain ⟨⟨p, v⟩, hp, rfl⟩ := List.mem_map.1 hev
  cases he
  have hp := (List.of_mem_zip hp).1
  exact .declaration hi (.inr (List.mem_append_left _ hp)) (hps p hp)

theorem bindMethod (hh : HeapOk V R m.heap) (k : Nat) (receiver : Value) :
    AllTraced V (R ++ Event.regions (m.bindMethodEvents k receiver))
      (m.bindMethodEvents k receiver) := by
  unfold Machine.bindMethodEvents
  split
  · exact nil
  · exact binding (getElem?_concat_size hh _) receiver

theorem property (hh : HeapOk V R m.heap) (object : Nat) (name : Token) :
    AllTraced V (R ++ Event.regions (m.propertyEvents object name))
      (m.propertyEvents object name) := by
  unfold Machine.propertyEvents
  split
  · exact nil
  · split
    · exact bindMethod hh _ _
    · exact nil

theorem superMethod (hh : HeapOk V R m.heap) (keyword : Reference) (method : Token) :
    AllTraced V (R ++ Event.regions (m.superMethodEvents keyword method))
      (m.superMethodEvents keyword method) := by
  unfold Machine.superMethodEvents
  split
  · exact nil
  · split
    · split
      · exact bindMethod hh _ _
      · exact nil
    · exact nil

theorem declareClass (hh : HeapOk V R m.heap)
    (hm : Mirrors R m.heap.frames lacking m.frame Γ ρs)
    (ht : ∀ ρ ∈ ρs.head?, name ∈ ρ.declared) (hid : IsIdentifier name.lexeme)
    (superclass : Option Nat) (methods : List Function) :
    AllTraced V (R ++ Event.regions (m.declareClassEvents name superclass methods))
      (m.declareClassEvents name superclass methods) := by
  unfold Machine.declareClassEvents
  refine append (append ((declare hh hm ht hid _).more _) ?_) ((declare hh hm ht hid _).more _)
  cases superclass with
  | none => exact nil
  | some c => exact cons_made (cons_stored (.superclass (getElem?_concat_size hh _)) nil)

theorem assign (hh : HeapOk V R m.heap) (ha : At R m.heap m.frame σ) (hw : Walked V)
    (he : V (.expr (.assign r e)) σ) (v : Value) :
    AllTraced V R (m.assignEvents (r.resolve σ.scopes) v) := by
  have hfits := hw.fits he
  have hwf := hfits.wellFormed
  simp only [Node.WellFormed, Expr.WellFormed] at hwf
  simp only [Machine.assignEvents]
  cases hd : (r.resolve σ.scopes).hops with
  | some d =>
    have hdist := (Reference.hops_resolve hwf.1.hops _).symm.trans hd
    obtain ⟨scope, hscope, -⟩ := Scope.contains_of_distance? hdist
    obtain ⟨j, hj, hm⟩ := ha.frameAt hscope
    simp only [hj]
    cases hρs : σ.regions.drop d with
    | nil => rw [hρs] at hm; cases hm
    | cons ρ ρs =>
      rw [hρs] at hm
      have hρ : σ.regions[d]? = some ρ := by rw [← List.head?_drop, hρs]; rfl
      cases hm with
      | inner _ hi => exact cons_stored (.assignment he hd hρ hi) nil
  | none =>
    dsimp only
    split
    · next j hj =>
      obtain ⟨bs, hbs⟩ := hh.globals
      cases Frames.holder?_root hbs hj
      exact cons_stored (.global he hd) nil
    · exact nil

theorem instantiate (hh : HeapOk V R m.heap) (hw : Walked V) (cls : Nat)
    (arguments : List Value) :
    AllTraced V (R ++ Event.regions (m.instantiateEvents cls arguments))
      (m.instantiateEvents cls arguments) := by
  unfold Machine.instantiateEvents
  split
  · exact nil
  · next hk =>
    split
    · exact nil
    · next c hc =>
      obtain ⟨_, hc', hmethod⟩ := hh.method? hk
      cases hc'.symm.trans hc
      rw [Event.regions_append, Event.regions_binding, Event.regions_calling]
      refine append ?_ (calling ?_ (hmethod.parameters hw) arguments)
      · have := binding (V := V) (R := R ++ [.receiver c.declaration]) (getElem?_concat_size hh _)
          (.object m.heap.instances.size)
        rw [← List.append_assoc]
        exact this.more [.call c.declaration]
      · show (R ++ [_, _])[m.heap.frames.all.size + 1]? = _
        rw [← hh.size]
        simp

theorem call (hh : HeapOk V R m.heap) (hw : Walked V) (hv : ValueOk V R m.heap callee)
    (arguments : List Value) :
    AllTraced V (R ++ Event.regions (m.callEvents callee arguments))
      (m.callEvents callee arguments) := by
  unfold Machine.callEvents
  split
  · unfold Machine.callValueEvents
    split
    · split
      · exact nil
      · next hc =>
        obtain ⟨_, hc', hcallable⟩ := hv
        cases hc'.symm.trans hc
        rw [Event.regions_calling]
        exact calling (getElem?_concat_size hh _) (hcallable.parameters hw) arguments
    · exact instantiate hh hw _ _
    · exact nil
  · exact nil

theorem execute (hh : HeapOk V R m.heap) (hw : Walked V) (ht : V (.stmt t) σ)
    (ha : At R m.heap m.frame σ) :
    AllTraced V (R ++ Event.regions (m.executeEvents (σ.stmt t)))
      (m.executeEvents (σ.stmt t)) := by
  have hd := (hw.fits ht).declared
  have hid := Stmt.WellFormed.declared (hw.fits ht).wellFormed
  cases t with
  | block ss =>
    simp only [Site.stmt_block, Machine.executeEvents]
    exact cons_made nil
  | classDecl name superclass methods =>
    simp only [Site.stmt_classDecl]
    cases superclass with
    | none =>
      exact declareClass hh ha (fun ρ hρ => hd ρ hρ _ List.mem_cons_self)
        (hid _ List.mem_cons_self) none ((σ.inClass name false).methods methods)
    | some r => exact nil
  | function f =>
    simp only [Site.stmt_function, Machine.executeEvents, Site.name_function]
    exact (declare hh ha (fun ρ hρ => hd ρ hρ _ List.mem_cons_self)
      (hid _ List.mem_cons_self) _).more _
  | varDecl name e =>
    cases e with
    | none =>
      simp only [Site.stmt_varDecl_none, Machine.executeEvents]
      exact (declare hh ha (fun ρ hρ => hd ρ hρ _ List.mem_cons_self)
        (hid _ List.mem_cons_self) _).more _
    | some e =>
      simp only [Site.stmt_varDecl_some, Machine.executeEvents]
      exact nil
  | returning k e => cases e <;> simp [Machine.executeEvents, nil]
  | _ => simp [Machine.executeEvents, nil]

theorem receive (hh : HeapOk V R m.heap) (hw : Walked V) (ha : At R m.heap m.frame σ)
    (hs : StackOk V R m.heap (w :: items) m.frame σ) (hv : ValueOk V R m.heap v) :
    AllTraced V (R ++ Event.regions (m.receiveEvents v w)) (m.receiveEvents v w) := by
  cases hs with
  | leave | activation => exact nil
  | waiting hj =>
    cases hj with
    | assign he => exact (assign hh ha hw he _).more _
    | callee =>
      rw [Machine.receiveEvents_callee]
      split
      · exact call hh hw hv _
      · exact nil
    | argument hcallee =>
      rw [Machine.receiveEvents_argument]
      split
      · exact call hh hw hcallee _
      · exact nil
    | get =>
      cases v with
      | object i => exact property hh _ _
      | _ => exact nil
    | define ht =>
      have hd := (hw.fits ht).declared
      have hid := Stmt.WellFormed.declared (hw.fits ht).wellFormed
      exact (declare hh ha (fun ρ hρ => hd ρ hρ _ List.mem_cons_self)
        (hid _ List.mem_cons_self) v).more _
    | superclass parent ht =>
      have hd := (hw.fits ht).declared
      have hid := Stmt.WellFormed.declared (hw.fits ht).wellFormed
      cases v with
      | cls c =>
        exact declareClass hh ha (fun ρ hρ => hd ρ hρ _ List.mem_cons_self)
          (hid _ List.mem_cons_self) (some c) _
      | _ => exact nil
    | _ => exact nil

/-- The stores of a step are traced. -/
theorem events (hm : Sound V R m) (hw : Walked V) :
    AllTraced V (R ++ Event.regions m.events) m.events := by
  obtain ⟨control, ⟨items, n, hn⟩, frame, heap, printed, callToken⟩ := m
  obtain ⟨hh, hc⟩ := hm
  cases hc with
  | @eval e σ _ _ he ha hs =>
    generalize σ.expr e = e'
    cases e' with
    | super keyword method => exact superMethod hh _ _
    | _ => exact nil
  | exec ht ha hs => exact execute hh hw ht ha
  | run | returning | failing => exact nil
  | value hv ha hs =>
    cases items with
    | nil => exact nil
    | cons w items => exact receive hh hw ha hs hv

/-- The stores of a run are traced. -/
theorem eventsWithin (hm : Sound V R m) (hw : Walked V) (s : Setting) (n : Nat) :
    AllTraced V (R ++ Event.regions (m.eventsWithin s n)) (m.eventsWithin s n) := by
  induction n generalizing m R with
  | zero => exact nil
  | succ n ih =>
    rw [Machine.eventsWithin]
    split
    · exact nil
    · rw [Event.regions_append, ← List.append_assoc]
      exact append ((events hm hw).more _) (ih (hm.step hw s))

end AllTraced

end LoxLang
