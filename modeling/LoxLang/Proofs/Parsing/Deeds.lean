import LoxLang.Proofs.Parsing.Indexed

/-!
# Deeds of a reader

What a reader by index does on its way is kept as a list of deeds. From one place to another
(`Path`) it looks at no token outside, goes past no end, and attempts declarations at indices that
only grow; an attempt that it gives up ends at a boundary of statements. A reading that stops in
between (`Cut`) leaves the same, but for attempts that are not over. What a whole reading has done
is `Orderly` (`Cut.orderly`).
-/

namespace LoxLang.Grammar

/-- The end of the tokens, a place just behind a semicolon, or one in front of a word that begins a
statement. -/
def Boundary (ts : List Token) (i : Nat) : Prop :=
  i = ts.length ∨ (∃ j t, i = j + 1 ∧ ts[j]? = some t ∧ t.kind = .semicolon) ∨
    ∃ t, ts[i]? = some t ∧ t.kind.startsStatement

/-- What a reader of some tokens may do. -/
def Deed.Fits (ts : List Token) : Deed → Prop
  | takes i => i < ts.length
  | begins i => i < ts.length
  | ends i j read => i < j ∧ j ≤ ts.length ∧ (read = false → Boundary ts j)

/-- Where declarations are attempted, the last attempt first. -/
def begun : List Deed → List Nat
  | [] => []
  | .begins i :: ds => i :: begun ds
  | _ :: ds => begun ds

theorem begun_append (ds es : List Deed) : begun (ds ++ es) = begun ds ++ begun es := by
  induction ds with
  | nil => rfl
  | cons d ds ih =>
    cases d with
    | begins i => exact congrArg (i :: ·) ih
    | takes | ends => exact ih

theorem mem_begun {ds : List Deed} : i ∈ begun ds ↔ .begins i ∈ ds := by
  induction ds with
  | nil => simp [begun]
  | cons d ds ih => cases d <;> simp [begun, ih]

/-- What a reader does until it stops: it attempts declarations further and further behind. -/
structure Cut (ts : List Token) (lo : Nat) (s s' : Spot) (news : List Deed) : Prop where
  deeds : s'.deeds = news ++ s.deeds
  fits : ∀ d ∈ news, d.Fits ts
  order : (begun news).Pairwise (· > ·)
  lower : ∀ i ∈ begun news, lo ≤ i

/-- What a reader does from one place to another: every attempt at a declaration that it begins it
has ended. -/
structure Path (ts : List Token) (lo : Nat) (s s' : Spot) (news : List Deed) : Prop extends
    Cut ts lo s s' news where
  forward : s.current ≤ s'.current
  bound : s'.current ≤ ts.length
  upper : ∀ i ∈ begun news, i < s'.current
  ended : ∀ i ∈ begun news, ∃ j read, .ends i j read ∈ news

section

variable {ts : List Token} {s mid s' : Spot} {news more : List Deed}

theorem Path.refl (hs : s.current ≤ ts.length) (lo : Nat) : Path ts lo s s [] where
  deeds := rfl
  fits := List.forall_mem_nil _
  order := .nil
  lower := List.forall_mem_nil _
  forward := Nat.le_refl _
  bound := hs
  upper := List.forall_mem_nil _
  ended := List.forall_mem_nil _

theorem Cut.behind (h : Cut ts lo' mid s' more) (hp : Path ts lo s mid news) (hlo : lo ≤ lo')
    (hmid : mid.current ≤ lo') : Cut ts lo s s' (more ++ news) where
  deeds := by rw [h.deeds, hp.deeds, List.append_assoc]
  fits := List.forall_mem_append.2 ⟨h.fits, hp.fits⟩
  order := by
    rw [begun_append]
    refine List.pairwise_append.2 ⟨h.order, hp.order, fun i hi j hj => ?_⟩
    have := h.lower i hi
    have := hp.upper j hj
    omega
  lower := by
    rw [begun_append]
    exact List.forall_mem_append.2 ⟨fun i hi => Nat.le_trans hlo (h.lower i hi), hp.lower⟩

theorem Path.behind (h : Path ts lo' mid s' more) (hp : Path ts lo s mid news) (hlo : lo ≤ lo')
    (hmid : mid.current ≤ lo') : Path ts lo s s' (more ++ news) where
  toCut := h.toCut.behind hp hlo hmid
  forward := Nat.le_trans hp.forward h.forward
  bound := h.bound
  upper := by
    rw [begun_append]
    exact List.forall_mem_append.2
      ⟨h.upper, fun i hi => Nat.lt_of_lt_of_le (hp.upper i hi) h.forward⟩
  ended := by
    rw [begun_append]
    refine List.forall_mem_append.2 ⟨fun i hi => ?_, fun i hi => ?_⟩
    · obtain ⟨j, read, hj⟩ := h.ended i hi
      exact ⟨j, read, List.mem_append_left _ hj⟩
    · obtain ⟨j, read, hj⟩ := hp.ended i hi
      exact ⟨j, read, List.mem_append_right _ hj⟩

theorem Cut.mono (h : Cut ts lo s s' news) (hlo : lo' ≤ lo) : Cut ts lo' s s' news :=
  ⟨h.deeds, h.fits, h.order, fun i hi => Nat.le_trans hlo (h.lower i hi)⟩

theorem Path.mono (h : Path ts lo s s' news) (hlo : lo' ≤ lo) : Path ts lo' s s' news :=
  ⟨h.toCut.mono hlo, h.forward, h.bound, h.upper, h.ended⟩

/-- A reader that makes reports. -/
theorem path_report (hs : s.current ≤ ts.length) (lo : Nat) (made : List Report) :
    Path ts lo s ⟨s.current, made, s.deeds⟩ [] :=
  { Path.refl hs lo with }

/-- A reader that goes past a token. -/
theorem path_past (hs : s.current < ts.length) (lo : Nat) :
    Path ts lo s s.past [.takes s.current] where
  deeds := rfl
  fits := List.forall_mem_singleton.2 hs
  order := .nil
  lower := List.forall_mem_nil _
  forward := Nat.le_succ _
  bound := hs
  upper := List.forall_mem_nil _
  ended := List.forall_mem_nil _

/-- An attempt at a declaration is begun in front of all that a reader attempts for it. -/
theorem Cut.attempt (h : Cut ts (s.current + 1) (s.log (.begins s.current)) s' news)
    (hs : s.current < ts.length) : Cut ts s.current s s' (news ++ [.begins s.current]) where
  deeds := by rw [h.deeds, Spot.log, List.append_assoc, List.singleton_append]
  fits := List.forall_mem_append.2 ⟨h.fits, List.forall_mem_singleton.2 hs⟩
  order := by
    rw [begun_append]
    exact List.pairwise_append.2 ⟨h.order, List.pairwise_singleton _ _, fun i hi j hj =>
      List.mem_singleton.1 hj ▸ h.lower i hi⟩
  lower := by
    rw [begun_append]
    exact List.forall_mem_append.2 ⟨fun i hi => Nat.le_of_succ_le (h.lower i hi),
      List.forall_mem_singleton.2 (Nat.le_refl _)⟩

/-- An attempt at a declaration that is over. -/
theorem Path.attempt (h : Path ts (s.current + 1) (s.log (.begins s.current)) s' news)
    (hs : s.current < s'.current) (hb : b = false → Boundary ts s'.current) :
    Path ts s.current s (s'.log (.ends s.current s'.current b))
      (.ends s.current s'.current b :: (news ++ [.begins s.current])) where
  deeds := congrArg (_ :: ·) (h.toCut.attempt (Nat.lt_of_lt_of_le hs h.bound)).deeds
  fits := List.forall_mem_cons.2
    ⟨⟨hs, h.bound, hb⟩, (h.toCut.attempt (Nat.lt_of_lt_of_le hs h.bound)).fits⟩
  order := (h.toCut.attempt (Nat.lt_of_lt_of_le hs h.bound)).order
  lower := (h.toCut.attempt (Nat.lt_of_lt_of_le hs h.bound)).lower
  forward := h.forward
  bound := h.bound
  upper := by
    change ∀ i ∈ begun (news ++ [.begins s.current]), _
    rw [begun_append]
    exact List.forall_mem_append.2 ⟨h.upper, List.forall_mem_singleton.2 hs⟩
  ended := by
    change ∀ i ∈ begun (news ++ [.begins s.current]), _
    rw [begun_append]
    refine List.forall_mem_append.2 ⟨fun i hi => ?_, List.forall_mem_singleton.2 ?_⟩
    · obtain ⟨j, b', hj⟩ := h.ended i hi
      exact ⟨j, b', List.mem_cons_of_mem _ (List.mem_append_left _ hj)⟩
    · exact ⟨_, _, List.mem_cons_self⟩

end

/-! ## Whole readings -/

/-- Fewer numbers than a bound are below it and descend. -/
theorem length_le_of_descending {l : List Nat} (h : l.Pairwise (· > ·)) (hl : ∀ i ∈ l, i < n) :
    l.length ≤ n := by
  induction l generalizing n with
  | nil => exact Nat.zero_le n
  | cons i l ih =>
    obtain ⟨hi, hrest⟩ := List.pairwise_cons.1 h
    exact Nat.succ_le_of_lt (Nat.lt_of_le_of_lt (ih hrest hi) (hl i List.mem_cons_self))

/-- What is done in a reading of some tokens: it stays inside them, and of the declarations that are
attempted each is attempted behind the one before. -/
structure Orderly (ts : List Token) (deeds : List Deed) : Prop where
  fits : ∀ d ∈ deeds, d.Fits ts
  order : (begun deeds).Pairwise (· > ·)
  few : (begun deeds).length ≤ ts.length

theorem Cut.orderly (h : Cut ts lo .first s news) : Orderly ts s.deeds := by
  have hdeeds : s.deeds = news := h.deeds.trans (List.append_nil news)
  rw [hdeeds]
  exact ⟨h.fits, h.order, length_le_of_descending h.order fun i hi => h.fits _ (mem_begun.1 hi)⟩

/-- An attempt at a declaration that is over. -/
def Over (deeds : List Deed) (i : Nat) : Prop := ∃ j b, .ends i j b ∈ deeds

end LoxLang.Grammar
