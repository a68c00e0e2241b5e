import LoxLang.Proofs.Chains
import Mathlib.Order.Bounds.Basic

/-!
# Searching a chain of frames and counting its links

The nearest frame that binds a name is the one at the least distance whose frame binds it, so a
search along the chain reads and rebinds what access by that distance does, and where there is no
such distance it complains of the token (`search_by_least_distance`). To rebind a name changes one
binding of one frame (`Rebound`), which every chain through that frame sees.
-/

namespace LoxLang

/-! ## Searches that complain -/

namespace Frames

variable {α : Type}

/-- What the nearest frame that binds a name binds it to, or the complaint about its token. -/
def find (fs : Frames α) (i : Nat) (name : Token) : Except Failure α :=
  match fs.get? i name.lexeme with
  | some a => .ok a
  | none => .error (.error name (.undefinedVariable name.lexeme))

/-- The frames with a name rebound in the nearest one that binds it, or the complaint about its
token. -/
def rebind (fs : Frames α) (i : Nat) (name : Token) (a : α) : Except Failure (Frames α) :=
  match fs.assign? i name.lexeme a with
  | some fs' => .ok fs'
  | none => .error (.error name (.undefinedVariable name.lexeme))

/-! ## Frames that were made -/

/-- Frames as they come about: made one after the other, each inside one that is there already or
inside none, and changed by nothing but binding names. -/
inductive Made {α : Type} : Frames α → Prop where
  | empty : Made .empty
  | make {fs : Frames α} {enclosing : Option Nat} (h : Made fs)
    (hi : ∀ i ∈ enclosing, i < fs.all.size) (bs : Bindings α) : Made (fs.make enclosing bs).2
  | define {fs : Frames α} (h : Made fs) (i : Nat) (x : String) (a : α) : Made (fs.define i x a)

variable {α : Type} {fs : Frames α} {i j d : Nat} {x : String} {l : List Nat}

theorem enclosing?_define (fs : Frames α) (i : Nat) (x : String) (a : α) :
    (fs.define i x a).enclosing? = fs.enclosing? :=
  funext fun j => map_enclosing_define fs i j x a

theorem Made.descending (h : Made fs) : Descending fs.enclosing? := by
  induction h with
  | empty => nofun
  | @make fs outer _ hi bs ih =>
    intro k j hk
    obtain ⟨f, hf, hj⟩ := Option.map_eq_some_iff.1 hk
    have hthere {j} (hj : j < fs.all.size) : ((fs.make outer bs).2.enclosing? j).isSome := by
      rw [enclosing?, frame?_make_of_lt hj, frame?, Array.getElem?_eq_getElem hj]
      rfl
    rcases of_getElem?_push hf with hold | ⟨rfl, rfl⟩
    · obtain ⟨hlt, -⟩ := ih k j (Option.map_eq_some_iff.2 ⟨f, hold, hj⟩)
      exact ⟨hlt, hthere (hlt.trans (lt_of_frame? hold))⟩
    · exact ⟨hi j hj, hthere (hi j hj)⟩
  | define _ i x a ih => rwa [enclosing?_define]

theorem exists_chain (h : fs.Made) (hi : i < fs.all.size) : ∃ l, Chain fs.enclosing? i l := by
  refine h.descending.exists_chain ?_
  rw [enclosing?, frame?, Array.getElem?_eq_getElem hi]
  rfl

/-! ## The least distance -/

/-- The frame so many links out binds the name. -/
def BindsAt (fs : Frames α) (i : Nat) (x : String) (d : Nat) : Prop :=
  ∃ j, fs.frameAt i d = .ok j ∧ (fs.lookup? j x).isSome

theorem bindsAt_iff (hl : Chain fs.enclosing? i l) :
    fs.BindsAt i x d ↔ ∃ j, l[d]? = some j ∧ (fs.lookup? j x).isSome := by
  simp only [BindsAt, frameAt_of_chain hl]
  cases l[d]? <;> simp

/-- The search stops at the least distance. -/
theorem holder?_of_least (h : fs.Made) (hi : i < fs.all.size)
    (hd : IsLeast {d | fs.BindsAt i x d} d) :
    ∃ j, fs.frameAt i d = .ok j ∧ fs.holder? i x = some j ∧ (fs.lookup? j x).isSome := by
  obtain ⟨l, hl⟩ := exists_chain h hi
  obtain ⟨j, hj, hx⟩ := hd.1
  refine ⟨j, hj, ?_, hx⟩
  have hget : l[d]? = some j := by
    rw [frameAt_of_chain hl] at hj
    cases hld : l[d]? with
    | none => rw [hld] at hj; cases hj
    | some k => rw [hld] at hj; cases hj; rfl
  obtain ⟨hlt, hel⟩ := List.getElem?_eq_some_iff.1 hget
  rw [holder?_of_chain hl h.descending, List.findSome?_eq_some_iff]
  refine ⟨l.take d, j, l.drop (d + 1), ?_, by rw [binder?, if_pos hx], fun k hk => ?_⟩
  · rw [← hel, List.getElem_cons_drop, List.take_append_drop]
  · -- A frame further in that bound the name would be at a smaller distance.
    obtain ⟨n, hn, rfl⟩ := List.mem_iff_getElem.1 hk
    rw [List.length_take] at hn
    rw [binder?, if_neg]
    intro hbinds
    have hle : d ≤ n := hd.2 ((bindsAt_iff hl).2 ⟨_, List.getElem?_eq_getElem (by omega),
      by simpa using hbinds⟩)
    omega

theorem holder?_eq_none (h : fs.Made) (hi : i < fs.all.size) (hno : ∀ d, ¬fs.BindsAt i x d) :
    fs.holder? i x = none := by
  obtain ⟨l, hl⟩ := exists_chain h hi
  rw [holder?_of_chain hl h.descending, List.findSome?_eq_none_iff]
  intro j hj
  obtain ⟨d, hd, rfl⟩ := List.mem_iff_getElem.1 hj
  rw [binder?, if_neg]
  exact fun hx => hno d ((bindsAt_iff hl).2 ⟨_, List.getElem?_eq_getElem hd, hx⟩)

/-! ## Walks -/

/-- To walk is to walk some of the links first and then the others. -/
theorem walk_add (fs : Frames α) (m n : Nat) (p : Option Nat) :
    fs.walk (m + n) p = (fs.walk m p).bind (fs.walk n) := by
  induction m generalizing p with
  | zero =>
    rw [Nat.zero_add]
    rfl
  | succ m ih =>
    rw [Nat.succ_add]
    cases p with
    | none => rfl
    | some i =>
      simp only [walk]
      cases fs.frame? i with
      | none => rfl
      | some f => exact ih f.enclosing

theorem walk_define (fs : Frames α) (j : Nat) (x : String) (a : α) (n : Nat) (p : Option Nat) :
    (fs.define j x a).walk n p = fs.walk n p := by
  induction n generalizing p with
  | zero => rfl
  | succ n ih =>
    cases p with
    | none => rfl
    | some i =>
      have hi := map_enclosing_define fs j i x a
      simp only [walk]
      cases hf : fs.frame? i with
      | none => rw [Option.map_eq_none_iff.1 (hi.trans (by rw [hf]; rfl))]
      | some f =>
        obtain ⟨f', hf', he⟩ := Option.map_eq_some_iff.1 (hi.trans (by rw [hf]; rfl))
        simp only [hf', he, ih]

theorem frameAt_define (fs : Frames α) (j : Nat) (x : String) (a : α) (i d : Nat) :
    (fs.define j x a).frameAt i d = fs.frameAt i d := by
  have hsize : (fs.define j x a).all.size = fs.all.size := Array.size_modify ..
  rw [frameAt, walk_define, hsize]
  rfl

/-! ## Rebinding -/

end Frames

/-- To bind a name that is bound already changes the one binding. -/
theorem Bindings.exists_insert {bs : Bindings α} (h : bs.contains x) (a : α) :
    ∃ before old after, bs = before ++ (x, old) :: after ∧ x ∉ names before ∧
      bs.insert x a = before ++ (x, a) :: after := by
  induction bs with
  | nil => cases h
  | cons b bs ih =>
    obtain ⟨n, b⟩ := b
    by_cases hn : n = x
    · subst hn
      exact ⟨[], b, bs, rfl, List.not_mem_nil, by rw [insert, if_pos rfl]; rfl⟩
    · rw [contains, get?_cons, if_neg hn] at h
      obtain ⟨before, old, after, rfl, hbefore, hinsert⟩ := ih h
      refine ⟨(n, b) :: before, old, after, rfl, ?_, ?_⟩
      · exact List.not_mem_cons_of_ne_of_not_mem (Ne.symm hn) hbefore
      · rw [insert, if_neg hn, hinsert]
        rfl

namespace Frames

variable {α : Type} {fs fs' : Frames α} {i j d : Nat} {x : String} {a : α}

/-- One binding of one frame is changed, and nothing else. -/
structure Rebound (fs : Frames α) (j : Nat) (x : String) (a : α) (fs' : Frames α) : Prop where
  /-- The frame binds the name in its old place, and the others as before. -/
  binding : ∃ f before old after, fs.frame? j = some f ∧
    f.bindings = before ++ (x, old) :: after ∧ x ∉ Bindings.names before ∧
    fs'.frame? j = some { f with bindings := before ++ (x, a) :: after }
  /-- All other frames are as they were. -/
  others : ∀ k, k ≠ j → fs'.frame? k = fs.frame? k
  /-- Every search that stops at the frame finds what the name is bound to now, and every other
  search what it found. -/
  get : ∀ k y, fs'.get? k y = if y = x ∧ fs.holder? k x = some j then some a else fs.get? k y
  /-- Every walk to the frame finds it, and every other walk what it found. -/
  getAt : ∀ k n y, fs'.getAt k n y =
    if y = x ∧ fs.frameAt k n = .ok j then .ok a else fs.getAt k n y

section

variable (hx : (fs.lookup? j x).isSome)

include hx

theorem lookup?_define_bound (a : α) (k : Nat) (y : String) :
    (fs.define j x a).lookup? k y = if y = x ∧ k = j then some a else fs.lookup? k y := by
  split
  · next h =>
    obtain ⟨rfl, rfl⟩ := h
    obtain ⟨_, hv⟩ := Option.isSome_iff_exists.1 hx
    obtain ⟨f, hf, -⟩ := Option.bind_eq_some_iff.1 hv
    exact lookup?_define_self (lt_of_frame? hf) ..
  · next h => exact lookup?_define_of_ne fs (by tauto) a

theorem isSome_lookup?_define (a : α) (k : Nat) (y : String) :
    ((fs.define j x a).lookup? k y).isSome = (fs.lookup? k y).isSome := by
  rw [lookup?_define_bound hx]
  split
  · next h =>
    obtain ⟨rfl, rfl⟩ := h
    exact hx.symm
  · rfl

/-- A search stops where it stopped. -/
theorem holder?_define (a : α) (k : Nat) (y : String) :
    (fs.define j x a).holder? k y = fs.holder? k y := by
  have hwithin (n k : Nat) : (fs.define j x a).holderWithin y n k = fs.holderWithin y n k := by
    induction n generalizing k with
    | zero => rfl
    | succ n ih =>
      have henclosing := map_enclosing_define fs j k x a
      have hbinds := isSome_lookup?_define hx a k y
      simp only [lookup?] at hbinds
      simp only [holderWithin]
      cases hf : fs.frame? k with
      | none => rw [Option.map_eq_none_iff.1 (henclosing.trans (by rw [hf]; rfl))]
      | some f =>
        obtain ⟨f', hf', he⟩ := Option.map_eq_some_iff.1 (henclosing.trans (by rw [hf]; rfl))
        rw [hf, hf'] at hbinds
        have hbinds : f'.bindings.contains y = f.bindings.contains y := hbinds
        simp only [hf', he, ih, hbinds]
  exact hwithin _ _

theorem rebound_define (a : α) : Rebound fs j x a (fs.define j x a) where
  binding := by
    obtain ⟨_, hv⟩ := Option.isSome_iff_exists.1 hx
    obtain ⟨f, hf, hv⟩ := Option.bind_eq_some_iff.1 hv
    have hcontains : f.bindings.contains x := Option.isSome_iff_exists.2 ⟨_, hv⟩
    obtain ⟨before, old, after, hbs, hbefore, hinsert⟩ := Bindings.exists_insert hcontains a
    refine ⟨f, before, old, after, hf, hbs, hbefore, ?_⟩
    rw [frame?_define, if_pos rfl, hf, ← hinsert]
    rfl
  others k hk := by rw [frame?_define, if_neg (Ne.symm hk)]
  get k y := by
    rw [Frames.get?, Frames.get?, holder?_define hx]
    cases hh : fs.holder? k y with
    | none =>
      rw [if_neg (by rintro ⟨rfl, h⟩; cases hh.symm.trans h)]
      rfl
    | some i =>
      simp only [Option.bind_some, lookup?_define_bound hx]
      split <;> split <;> first | rfl | (exfalso; grind)
  getAt k n y := by
    rw [Frames.getAt, Frames.getAt, frameAt_define]
    cases fs.frameAt k n with
    | error e => simp
    | ok i =>
      simp only [lookup?_define_bound hx, Except.ok.injEq]
      by_cases h : y = x ∧ i = j
      · rw [if_pos h, if_pos h]
      · rw [if_neg h, if_neg h]

end

/-! ## The two kinds of access -/

/-- The nearest frame that binds a name is the one at the least distance, so a search from any frame
reads and rebinds what access by that distance does, and the one binding is changed for every chain
through its frame. Without such a distance both searches complain of the token and change nothing. A
walk of so many links and then so many more is one walk. -/
theorem search_by_least_distance (hfs : fs.Made) (hi : i < fs.all.size) (name : Token) :
    (∀ d, IsLeast {d | fs.BindsAt i name.lexeme d} d →
      (∃ a, fs.find i name = .ok a ∧ fs.getAt i d name.lexeme = .ok a) ∧
      ∃ j, fs.frameAt i d = .ok j ∧ ∀ a, ∃ fs', fs.rebind i name a = .ok fs' ∧
        fs.assignAt i d name.lexeme a = .ok fs' ∧ Rebound fs j name.lexeme a fs') ∧
    ((∀ d, ¬fs.BindsAt i name.lexeme d) →
      ∃ e : RuntimeError, e.message = "Undefined variable '" ++ name.lexeme ++ "'." ∧
        fs.find i name = .error (.error name e) ∧
        ∀ a, fs.rebind i name a = .error (.error name e)) ∧
    ∀ m n p, fs.walk (m + n) p = (fs.walk m p).bind (fs.walk n) := by
  refine ⟨fun d hd => ?_, fun hno => ?_, walk_add fs⟩
  · obtain ⟨j, hj, hholder, hx⟩ := holder?_of_least hfs hi hd
    obtain ⟨a, ha⟩ := Option.isSome_iff_exists.1 hx
    refine ⟨⟨a, ?_, ?_⟩, j, hj, fun v => ⟨_, ?_, ?_, rebound_define hx v⟩⟩
    · simp only [find, Frames.get?, hholder, Option.bind_some, ha]
    · simp only [Frames.getAt, hj, ha]
    · simp only [rebind, assign?, hholder, Option.map_some]
    · simp only [assignAt, hj]
  · have hholder := holder?_eq_none hfs hi hno
    refine ⟨.undefinedVariable name.lexeme, rfl, ?_, fun a => ?_⟩
    · simp only [find, Frames.get?, hholder, Option.bind_none]
    · simp only [rebind, assign?, hholder, Option.map_none]

/-- Two chains with a shared tail: outermost a frame with `a`, inside it one with `a` and `b`, and
inside that two frames, the first without names and the second with `a`. -/
def sharedTail : Frames Nat :=
  ((((empty.make none [("a", 1)]).2.make (some 0) [("a", 2), ("b", 3)]).2.make (some 1) []).2.make
    (some 1) [("a", 4)]).2

theorem made_sharedTail : sharedTail.Made :=
  (((Made.empty.make (by simp) _).make (by decide) _).make (by decide) _).make
    (by decide) _

/-- From the first inner frame `a` is one link away, where it has a shadow further out. It is
rebound there, which a walk from the second inner frame sees and a search from it does not. -/
theorem search_by_least_distance_sharedTail :
    let a : Token := ⟨.identifier, "a", none, 1, 1⟩
    sharedTail.Made ∧ 2 < sharedTail.all.size ∧ IsLeast {d | sharedTail.BindsAt 2 "a" d} 1 ∧
      sharedTail.getAt 2 1 "a" = .ok 2 ∧
      sharedTail.find 2 a = .ok 2 ∧
      ∃ fs', sharedTail.rebind 2 a 5 = .ok fs' ∧
        fs'.getAt 3 1 "a" = .ok 5 ∧ fs'.get? 3 "a" = some 4 := by
  intro a
  have hleast : IsLeast {d | sharedTail.BindsAt 2 "a" d} 1 := by
    refine ⟨⟨1, rfl, rfl⟩, fun d hd => ?_⟩
    rcases Nat.eq_zero_or_pos d with rfl | hpos
    · obtain ⟨j, hj, hx⟩ := hd
      cases hj
      cases hx
    · exact hpos
  obtain ⟨⟨v, hfind, hget⟩, j, hj, hassign⟩ :=
    (search_by_least_distance made_sharedTail (by decide : 2 < _) a).1 1 hleast
  cases hget
  cases hj
  obtain ⟨fs', hfs', -, hrebound⟩ := hassign 5
  refine ⟨made_sharedTail, by decide, hleast, rfl, hfind, fs', hfs', ?_, ?_⟩
  · rw [hrebound.getAt]
    rfl
  · rw [hrebound.get]
    rfl

end Frames

/-! ## The searches of a machine -/

namespace Machine

variable {m : Machine} {r : Reference}

/-- A variable without a number of scopes is searched for from the globals. -/
theorem read_eq_find (h : r.hops = none) :
    m.read r = match m.heap.frames.find Heap.globals r.name with
      | .ok v => m.yield v
      | .error f => m.fail f := by
  simp only [read, h, Frames.find]
  cases m.heap.frames.get? Heap.globals r.name.lexeme <;> rfl

theorem assign_eq_rebind (h : r.hops = none) (v : Value) :
    m.assign r v = match m.heap.frames.rebind Heap.globals r.name v with
      | .ok frames => { m with heap := { m.heap with frames }, control := .value v }
      | .error f => m.fail f := by
  simp only [assign, h, Frames.rebind, Frames.assign?]
  cases m.heap.frames.holder? Heap.globals r.name.lexeme <;> rfl

end Machine

end LoxLang
