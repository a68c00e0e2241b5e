import LoxLang.Proofs.Holdings

/-!
# Chains end

A class is younger than its superclass and a frame is younger than the one around it, in every
session and whichever trees it runs (`Met.nested`): what a step makes is linked to what was there
before, and links never change. So a search along superclasses or frames needs no bound of its own,
it meets what is on the one chain from where it starts, and every chain of frames ends in that of
the globals (`chains_end`).
-/

namespace LoxLang

/-! ## Links -/

/-- The chain from a number: every number on it links to the next one, and the last to none. -/
inductive Chain (link : Nat → Option (Option Nat)) : Nat → List Nat → Prop where
  | last : link i = some none → Chain link i [i]
  | cons : link i = some (some j) → Chain link j l → Chain link i (i :: l)

/-- A search that goes along links until a number has an answer. It is given no bound. -/
inductive Search (answer : Nat → Option α) (link : Nat → Option (Option Nat)) :
    Nat → Option α → Prop where
  | here : answer i = some a → Search answer link i (some a)
  | next : answer i = none → link i = some (some j) → Search answer link j r →
    Search answer link i r
  | none : answer i = none → link i = some none → Search answer link i none

section

variable {link : Nat → Option (Option Nat)} {answer : Nat → Option α} {i : Nat} {l : List Nat}

/-- All links are to smaller numbers, which are linked as well. -/
def Descending (link : Nat → Option (Option Nat)) : Prop :=
  ∀ i j, link i = some (some j) → j < i ∧ (link j).isSome

theorem Descending.exists_chain (h : Descending link) (hi : (link i).isSome) :
    ∃ l, Chain link i l := by
  induction i using Nat.strongRecOn with
  | ind i ih =>
    obtain ⟨next, hnext⟩ := Option.isSome_iff_exists.1 hi
    cases next with
    | none => exact ⟨_, .last hnext⟩
    | some j =>
      obtain ⟨hlt, hj⟩ := h i j hnext
      obtain ⟨l, hl⟩ := ih j hlt hj
      exact ⟨_, .cons hnext hl⟩

namespace Chain

theorem unique (h : Chain link i l) (h' : Chain link i l') : l = l' := by
  induction h generalizing l' with
  | last hi =>
    cases h' with
    | last => rfl
    | cons hi' => cases hi.symm.trans hi'
  | cons hi _ ih =>
    cases h' with
    | last hi' => cases hi.symm.trans hi'
    | cons hi' h' =>
      cases hi.symm.trans hi'
      rw [ih h']

theorem le_of_mem (h : Chain link i l) (hd : Descending link) (hj : j ∈ l) : j ≤ i := by
  induction h with
  | last => exact Nat.le_of_eq (List.mem_singleton.1 hj)
  | cons hi _ ih =>
    rcases List.mem_cons.1 hj with rfl | hj
    · exact Nat.le_refl _
    · exact Nat.le_trans (ih hj) (Nat.le_of_lt (hd _ _ hi).1)

theorem pairwise (h : Chain link i l) (hd : Descending link) : l.Pairwise (· > ·) := by
  induction h with
  | last => exact List.pairwise_singleton ..
  | cons hi hl ih =>
    exact .cons (fun _ hk => Nat.lt_of_le_of_lt (hl.le_of_mem hd hk) (hd _ _ hi).1) ih

theorem length_le (h : Chain link i l) (hd : Descending link) : l.length ≤ i + 1 := by
  induction h with
  | last => exact Nat.succ_le_succ (Nat.zero_le _)
  | cons hi _ ih => exact Nat.succ_le_succ (Nat.le_trans ih (hd _ _ hi).1)

theorem exists_last (h : Chain link i l) : ∃ j, l.getLast? = some j ∧ link j = some none := by
  induction h with
  | last hi => exact ⟨_, rfl, hi⟩
  | cons _ hl ih =>
    obtain ⟨j, hlast, hj⟩ := ih
    refine ⟨j, ?_, hj⟩
    rw [List.getLast?_cons, hlast]
    rfl

/-- The search meets the numbers on the chain in order, and no others. -/
theorem search (h : Chain link i l) : Search answer link i (l.findSome? answer) := by
  induction h with
  | @last i hi =>
    rw [List.findSome?_cons]
    split
    · next ha => exact .here ha
    · next ha => exact .none ha hi
  | cons hi _ ih =>
    rw [List.findSome?_cons]
    split
    · next ha => exact .here ha
    · next ha => exact .next ha hi ih

end Chain

theorem Search.unique (h : Search answer link i r) (h' : Search answer link i r') : r = r' := by
  induction h with
  | here ha =>
    cases h' with
    | here ha' => exact ha.symm.trans ha'
    | next ha' | none ha' => cases ha.symm.trans ha'
  | next ha hi _ ih =>
    cases h' with
    | here ha' => cases ha.symm.trans ha'
    | next _ hi' h' =>
      cases hi.symm.trans hi'
      exact ih h'
    | none _ hi' => cases hi.symm.trans hi'
  | none ha hi =>
    cases h' with
    | here ha' => cases ha.symm.trans ha'
    | next _ hi' => cases hi.symm.trans hi'
    | none => rfl

theorem Chain.search_iff (h : Chain link i l) :
    Search answer link i r ↔ r = l.findSome? answer :=
  ⟨fun hr => hr.unique h.search, fun hr => hr ▸ h.search⟩

end

/-! ## Searches along frames -/

namespace Frames

variable {α : Type} {fs : Frames α} {i : Nat} {l : List Nat}

/-- The frame that a frame is inside, if the frame is there. -/
def enclosing? (fs : Frames α) (i : Nat) : Option (Option Nat) := (fs.frame? i).map Frame.enclosing

/-- A frame, if it binds a name itself. -/
def binder? (fs : Frames α) (name : String) (i : Nat) : Option Nat :=
  if (fs.lookup? i name).isSome then some i else none

theorem binder?_of_frame? {f : Frame α} (hf : fs.frame? i = some f) (name : String) :
    fs.binder? name i = if f.bindings.contains name then some i else none := by
  rw [binder?, lookup?, hf]
  rfl

theorem holderWithin_of_chain (h : Chain fs.enclosing? i l) (name : String) (n : Nat) :
    fs.holderWithin name n i = (l.take n).findSome? (fs.binder? name) := by
  induction h generalizing n with
  | last hi =>
    obtain ⟨f, hf, houter⟩ := Option.map_eq_some_iff.1 hi
    cases n with
    | zero => rfl
    | succ n =>
      simp only [holderWithin, hf, houter, List.take_succ_cons, List.take_nil,
        List.findSome?_cons, binder?_of_frame? hf, List.findSome?_nil]
      split <;> rfl
  | cons hi _ ih =>
    obtain ⟨f, hf, houter⟩ := Option.map_eq_some_iff.1 hi
    cases n with
    | zero => rfl
    | succ n =>
      simp only [holderWithin, hf, houter, List.take_succ_cons, List.findSome?_cons,
        binder?_of_frame? hf, ih]
      split <;> rfl

theorem holder?_of_chain (h : Chain fs.enclosing? i l) (hd : Descending fs.enclosing?)
    (name : String) : fs.holder? i name = l.findSome? (fs.binder? name) := by
  rw [holder?, holderWithin_of_chain h, List.take_of_length_le (h.length_le hd)]

theorem lookup?_of_binder (fs : Frames α) (name : String) (l : List Nat) :
    ((l.findSome? (fs.binder? name)).bind fun j => fs.lookup? j name) =
      l.findSome? (fs.lookup? · name) := by
  induction l with
  | nil => rfl
  | cons j l ih =>
    rw [List.findSome?_cons, List.findSome?_cons, binder?]
    cases hj : (fs.lookup? j name).isSome with
    | true =>
      obtain ⟨a, ha⟩ := Option.isSome_iff_exists.1 hj
      simp only [if_pos, Option.bind_some, ha]
    | false =>
      rw [Option.isSome_eq_false_iff, Option.isNone_iff_eq_none] at hj
      simp only [hj, ih, Bool.false_eq_true, if_false]

theorem get?_of_chain (h : Chain fs.enclosing? i l) (hd : Descending fs.enclosing?)
    (name : String) : fs.get? i name = l.findSome? (fs.lookup? · name) := by
  rw [get?, holder?_of_chain h hd, lookup?_of_binder]

theorem frameAt_of_chain (h : Chain fs.enclosing? i l) (d : Nat) :
    fs.frameAt i d = (l[d]?).elim (.error .outside) .ok := by
  induction h generalizing d with
  | last hi =>
    obtain ⟨⟨_, bs⟩, hf, rfl⟩ := Option.map_eq_some_iff.1 hi
    match d with
    | 0 => exact frameAt_zero hf
    | 1 => simp [frameAt, walk, hf]
    | d + 2 => simp [frameAt, walk, hf]
  | cons hi _ ih =>
    obtain ⟨⟨_, bs⟩, hf, rfl⟩ := Option.map_eq_some_iff.1 hi
    cases d with
    | zero => exact frameAt_zero hf
    | succ d => rw [frameAt_succ hf, ih, List.getElem?_cons_succ]

end Frames

/-! ## Searches along superclasses -/

namespace Heap

variable {h : Heap} {i : Nat} {l : List Nat}

/-- The superclass of a class, if the class is there. -/
def superclass? (h : Heap) (i : Nat) : Option (Option Nat) := h.classes[i]?.map Class.superclass

/-- The method that a class itself has under a name. -/
def ownMethod? (h : Heap) (name : String) (i : Nat) : Option Nat :=
  h.classes[i]?.bind fun c => c.methods.get? name

theorem methodWithin_of_chain (hl : Chain h.superclass? i l) (name : String) (n : Nat) :
    h.methodWithin name n i = (l.take n).findSome? (h.ownMethod? name) := by
  induction hl generalizing n with
  | last hi =>
    obtain ⟨c, hc, hsuper⟩ := Option.map_eq_some_iff.1 hi
    cases n with
    | zero => rfl
    | succ n =>
      simp only [methodWithin, hc, hsuper, List.take_succ_cons, List.take_nil,
        List.findSome?_cons, ownMethod?, Option.bind_some, List.findSome?_nil]
      cases c.methods.get? name <;> rfl
  | cons hi _ ih =>
    obtain ⟨c, hc, hsuper⟩ := Option.map_eq_some_iff.1 hi
    cases n with
    | zero => rfl
    | succ n =>
      simp only [methodWithin, hc, hsuper, List.take_succ_cons, List.findSome?_cons, ownMethod?,
        Option.bind_some, ih]
      cases c.methods.get? name <;> rfl

theorem method?_of_chain (hl : Chain h.superclass? i l) (hd : Descending h.superclass?)
    (name : String) : h.method? i name = l.findSome? (h.ownMethod? name) := by
  rw [method?, methodWithin_of_chain hl, List.take_of_length_le (hl.length_le hd)]

end Heap

/-! ## What is made is linked to what is older -/

/-- Every frame is inside an older one, except that of the globals. -/
def Heap.Nested (h : Heap) : Prop :=
  ∀ i outer, h.frames.enclosing? i = some outer →
    (outer = none ↔ i = Heap.globals) ∧ ∀ j, outer = some j → j < i

namespace Heap.Nested

variable {h : Heap}

theorem initial : Heap.initial.Nested := by
  intro i outer houter
  obtain ⟨f, hf, rfl⟩ := Option.map_eq_some_iff.1 houter
  obtain ⟨hi, rfl⟩ := Array.getElem?_eq_some_iff.1 hf
  obtain rfl : i = 0 := by have : i < 1 := hi; omega
  exact ⟨⟨fun _ => rfl, fun _ => rfl⟩, nofun⟩

theorem define (hn : h.Nested) (i : Nat) (x : String) (v : Value) : (h.define i x v).Nested := by
  intro j outer houter
  exact hn j outer ((Frames.map_enclosing_define h.frames i j x v).symm.trans houter)

theorem enclose (hn : h.Nested) (hj : j < h.frames.all.size) (bs : Bindings Value) :
    (h.enclose j bs).2.Nested := by
  intro i outer houter
  obtain ⟨f, hf, rfl⟩ := Option.map_eq_some_iff.1 houter
  rcases of_getElem?_push hf with hold | ⟨rfl, rfl⟩
  · exact hn i _ (Option.map_eq_some_iff.2 ⟨f, hold, rfl⟩)
  · refine ⟨⟨nofun, fun hi => ?_⟩, fun k hk => Option.some.inj hk ▸ hj⟩
    have : h.frames.all.size = 0 := hi
    omega

/-- What frames are inside does not depend on the rest of the heap. -/
theorem of_frames (hn : h.Nested) (he : h'.frames = h.frames) : Heap.Nested h' := by
  intro i outer houter
  rw [he] at houter
  exact hn i outer houter

end Heap.Nested

namespace Machine

variable {m : Machine}

theorem Turn.nested (ht : Turn m es h i) (hr : m.InRange) (hn : m.heap.Nested) : h.Nested := by
  have hm := hr.around.current
  cases ht with
  | quiet => exact hn
  | declare | assign => exact hn.define _ _ _
  | block => exact hn.enclose hm _
  | function => exact (hn.of_frames rfl).define _ _ _
  | @declares name superclass methods =>
    rw [declareClass_eq hm]
    cases superclass with
    | none =>
      have hnil := hn.define m.frame name.lexeme .nil
      exact Heap.Nested.define (hnil.of_frames (frames_addMethods ..)) _ _ _
    | some p =>
      have hsize : m.frame < (m.heap.define m.frame name.lexeme .nil).frames.all.size := by
        simpa [Heap.define, Frames.define, size] using hm
      have hsuper := (hn.define m.frame name.lexeme .nil).enclose hsize [("super", .cls p)]
      exact Heap.Nested.define (hsuper.of_frames (frames_addMethods ..)) _ _ _
  | binds _ hc => exact (hn.enclose (hr.closures hc) _).of_frames rfl
  | calls _ _ hc => exact hn.enclose (hr.closures hc) _
  | creates => exact hn.of_frames rfl
  | constructs _ _ _ hc =>
    refine Heap.Nested.enclose ((hn.of_frames rfl).enclose (hr.closures hc) _) ?_ _
    rw [size_enclose]
    exact Nat.lt_succ_self _
  | sets | asks => exact hn.of_frames rfl

variable {P : Control → Prop}

theorem Met.nested (h : Met P m) : m.heap.Nested :=
  h.induct (fun _ _ => .initial) (fun m s hm ih => (turn_step s m).nested hm.inRange ih)
    fun _ _ _ ih _ => ih

theorem Met.superclass_lt {c : Class} (h : Met P m) (hP : ∀ task, P task → task.values = [])
    (hc : m.heap.classes[i]? = some c) (hp : c.superclass = some p) : p < i := by
  obtain ⟨a, methods, s, ha, -, hintroduces⟩ := h.introduced hc
  obtain ⟨name, hdeclares, -⟩ := hintroduces.statement
  rw [hp] at hdeclares
  cases hdeclares with
  | derived hcontrol =>
    -- The superclass is in hand when the class is made, so it is there already.
    have hhas := (ha.holdsMadeOnly hP).control (.cls p) (hcontrol ▸ List.mem_singleton_self _)
    exact hintroduces.number ▸ hhas

theorem Met.descending_superclass (h : Met P m) (hP : ∀ task, P task → task.values = []) :
    Descending m.heap.superclass? := by
  intro i j hi
  obtain ⟨c, hc, hsuper⟩ := Option.map_eq_some_iff.1 hi
  have hlt := h.superclass_lt hP hc hsuper
  refine ⟨hlt, ?_⟩
  have hj : j < m.heap.classes.size := Nat.lt_trans hlt (Array.getElem?_eq_some_iff.1 hc).1
  rw [Heap.superclass?, Array.getElem?_eq_getElem hj]
  rfl

theorem Met.descending_enclosing (h : Met P m) : Descending m.heap.frames.enclosing? := by
  intro i j hi
  obtain ⟨f, hf, -⟩ := Option.map_eq_some_iff.1 hi
  have hlt := (h.nested i _ hi).2 j rfl
  refine ⟨hlt, ?_⟩
  have hj : j < m.heap.frames.all.size := Nat.lt_trans hlt (Frames.lt_of_frame? hf)
  rw [Frames.enclosing?, Frames.frame?, Array.getElem?_eq_getElem hj]
  rfl

end Machine

/-- A task that a run starts with: a program or an expression, made by whatever means. -/
def Control.isTree : Control → Bool
  | .run _ | .eval _ => true
  | _ => false

open Machine in
/-- Chains of classes and of frames end. At every moment of a session, whichever trees it runs, a
class is younger than its superclass, and a frame is younger than the one that it is inside; only
the frame of the globals is inside none. From every class and from every frame there is one chain,
it never comes back, and a search along it ends without a bound. A method is that of the first class
on the chain that has one of its name, also when a class tells how many arguments it takes. The
chain of a frame ends in that of the globals; a name is read, and assigned, in the first frame on
the chain that binds it, and counting links gives the frames on the chain in order. -/
theorem chains_end (h : Met (·.isTree) m) :
    (∀ i p, m.heap.superclass? i = some (some p) → p < i) ∧
    (∀ i outer, m.heap.frames.enclosing? i = some outer →
      (outer = none ↔ i = Heap.globals) ∧ ∀ j, outer = some j → j < i) ∧
    (∀ i, i < m.heap.classes.size →
      ∃ l, (∀ l', Chain m.heap.superclass? i l' ↔ l' = l) ∧ l.Pairwise (· > ·) ∧
        (∀ x, m.heap.method? i x = l.findSome? (m.heap.ownMethod? x) ∧
          ∀ r, Search (m.heap.ownMethod? x) m.heap.superclass? i r ↔ r = m.heap.method? i x) ∧
        m.heap.arity? (.cls i) =
          some (((l.findSome? (m.heap.ownMethod? Heap.initName)).map m.heap.closureArity).getD 0)) ∧
    ∀ i, i < m.heap.frames.all.size →
      ∃ l, (∀ l', Chain m.heap.frames.enclosing? i l' ↔ l' = l) ∧ l.Pairwise (· > ·) ∧
        l.getLast? = some Heap.globals ∧
        (∀ x, m.heap.frames.get? i x = l.findSome? (m.heap.frames.lookup? · x) ∧
          ∀ r, Search (m.heap.frames.lookup? · x) m.heap.frames.enclosing? i r ↔
            r = m.heap.frames.get? i x) ∧
        (∀ x, (∀ v, m.heap.frames.assign? i x v =
            (l.findSome? (m.heap.frames.binder? x)).map fun j => m.heap.frames.define j x v) ∧
          ∀ r, Search (m.heap.frames.binder? x) m.heap.frames.enclosing? i r ↔
            r = l.findSome? (m.heap.frames.binder? x)) ∧
        ∀ d, m.heap.frames.frameAt i d = (l[d]?).elim (.error .outside) .ok := by
  have hclasses := h.descending_superclass fun task (ht : task.isTree) => by
    cases task <;> first | rfl | cases ht
  have hframes := h.descending_enclosing
  refine ⟨fun i p hp => (hclasses i p hp).1, h.nested, fun i hi => ?_, fun i hi => ?_⟩
  · obtain ⟨l, hl⟩ := hclasses.exists_chain (i := i) (by
      rw [Heap.superclass?, Array.getElem?_eq_getElem hi]
      rfl)
    have hmethod (x : String) := Heap.method?_of_chain hl hclasses x
    refine ⟨l, fun l' => ⟨fun h => h.unique hl, fun e => e ▸ hl⟩, hl.pairwise hclasses,
      fun x => ⟨hmethod x, ?_⟩, ?_⟩
    · rw [hmethod]
      exact fun r => hl.search_iff
    · rw [Heap.arity?, hmethod]
  · obtain ⟨l, hl⟩ := hframes.exists_chain (i := i) (by
      rw [Frames.enclosing?, Frames.frame?, Array.getElem?_eq_getElem hi]
      rfl)
    have hget (x : String) := Frames.get?_of_chain hl hframes x
    have hholder (x : String) := Frames.holder?_of_chain hl hframes x
    obtain ⟨j, hlast, hj⟩ := hl.exists_last
    obtain rfl : j = Heap.globals := (h.nested j none hj).1.1 rfl
    refine ⟨l, fun l' => ⟨fun h => h.unique hl, fun e => e ▸ hl⟩, hl.pairwise hframes, hlast,
      fun x => ⟨hget x, ?_⟩, fun x => ⟨fun v => ?_, fun r => hl.search_iff⟩,
      fun d => Frames.frameAt_of_chain hl d⟩
    · rw [hget]
      exact fun r => hl.search_iff
    · rw [Frames.assign?, hholder]

/-- Trees made by hand declare a class twice, the second time as a subclass of a subclass of the
first one. -/
theorem chains_end_of_redeclared_class :
    let name (x : String) : Token := ⟨.identifier, x, none, 1, 1⟩
    let m := (Memory.initial.start (.run [
      .classDecl (name "A") none [.mk (name "init") [name "x"] []],
      .classDecl (name "B") (some ⟨name "A", none⟩) [],
      .classDecl (name "A") (some ⟨name "B", none⟩) []])).run ⟨9, fun _ => 0⟩ 20
    m.Met (·.isTree) ∧ (∀ l, Chain m.heap.superclass? 2 l ↔ l = [2, 1, 0]) ∧
      m.heap.arity? (.cls 2) = some 1 ∧
      (∀ l, Chain m.heap.frames.enclosing? 2 l ↔ l = [2, 0]) ∧
      m.heap.frames.frameAt 2 1 = .ok 0 ∧ m.heap.frames.frameAt 2 2 = .error .outside := by
  intro name m
  have hmet : m.Met (·.isTree) := ⟨_, rfl, Machine.later_run ..⟩
  obtain ⟨-, -, hclasses, hframes⟩ := chains_end hmet
  obtain ⟨l, hl, -, -, harity⟩ := hclasses 2 (by decide +kernel)
  obtain ⟨l', hl', -, -, -, -, hframe⟩ := hframes 2 (by decide +kernel)
  obtain rfl : [2, 1, 0] = l := (hl _).1
    (.cons (by decide +kernel) (.cons (by decide +kernel) (.last (by decide +kernel))))
  obtain rfl : [2, 0] = l' := (hl' _).1 (.cons (by decide +kernel) (.last (by decide +kernel)))
  refine ⟨hmet, hl, harity.trans (by decide +kernel), hl', hframe 1, hframe 2⟩

end LoxLang
