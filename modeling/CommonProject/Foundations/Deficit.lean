import CommonProject.Foundations.Height

/-! Trees that keep all red-black rules but one: the paths through one place are a black node
short. -/
namespace CommonProject.Foundations.RedBlack
open ColorTree
variable {α : Type}

/-- The nodes of a path from the root down to a leaf, with the sides taken and their colours. -/
inductive Way : ColorTree α → List (Dir × Color × α) → Prop
  | nil : Way .nil []
  | left {c : Color} {l r : ColorTree α} {x : α} {q : List (Dir × Color × α)} :
      Way l q → Way (.node c l x r) ((.left, c, x) :: q)
  | right {c : Color} {l r : ColorTree α} {x : α} {q : List (Dir × Color × α)} :
      Way r q → Way (.node c l x r) ((.right, c, x) :: q)

def blackCount (q : List (Dir × Color × α)) : Nat := q.countP fun n => n.2.1 = .black

/-- The way goes down from the node `x` on the side `d`. -/
def Passes (q : List (Dir × Color × α)) (d : Dir) (x : α) : Prop := ∃ c, (d, c, x) ∈ q

def RedRule : ColorTree α → Prop
  | .nil => True
  | .node c l _ r => (c = .red → l.color = .black ∧ r.color = .black) ∧ RedRule l ∧ RedRule r

variable {t u near far sib : ColorTree α} {c p : Color} {n k : Nat} {d : Dir} {x y : α}
  {ctx : List (Frame α)} {q : List (Dir × Color × α)}

theorem Way.path (h : Way t q) : Path t (q.map Prod.snd) := by
  induction h with
  | nil => exact .nil
  | left _ ih => exact .left ih
  | right _ ih => exact .right ih

theorem Balanced.blackCount_eq (h : Balanced t c n) (hq : Way t q) : blackCount q = n := by
  rw [← h.count_black hq.path, List.countP_map]
  rfl

theorem Way.mem (h : Way t q) (hn : (d, c, x) ∈ q) : x ∈ t.toList := by
  induction h with
  | nil => cases hn
  | left _ ih =>
    rw [toList, List.mem_append, List.mem_cons]
    rcases List.mem_cons.mp hn with heq | hn
    · exact .inr (.inl (Prod.mk.inj (Prod.mk.inj heq).2).2)
    · exact .inl (ih hn)
  | right _ ih =>
    rw [toList, List.mem_append, List.mem_cons]
    rcases List.mem_cons.mp hn with heq | hn
    · exact .inr (.inl (Prod.mk.inj (Prod.mk.inj heq).2).2)
    · exact .inr (.inr (ih hn))

private theorem way_branch : Way (branch d c x near far) q ↔
    (∃ r, q = (d, c, x) :: r ∧ Way near r) ∨ ∃ r, q = (d.flip, c, x) :: r ∧ Way far r := by
  constructor
  · intro h
    cases d
    · cases h with
      | left h => exact .inl ⟨_, rfl, h⟩
      | right h => exact .inr ⟨_, rfl, h⟩
    · cases h with
      | left h => exact .inr ⟨_, rfl, h⟩
      | right h => exact .inl ⟨_, rfl, h⟩
  · rintro (⟨r, rfl, h⟩ | ⟨r, rfl, h⟩) <;> cases d
    · exact .left h
    · exact .right h
    · exact .right h
    · exact .left h

private theorem redRule_branch : RedRule (branch d c x near far) ↔
    (c = .red → near.color = .black ∧ far.color = .black) ∧ RedRule near ∧ RedRule far := by
  cases d
  · rfl
  · rw [branch, RedRule, and_comm (a := far.color = .black), and_comm (a := RedRule far)]

theorem Balanced.redRule (h : Balanced t c n) : RedRule t := by
  induction h with
  | nil => trivial
  | red hl hr ihl ihr => exact ⟨fun _ => ⟨hl.color_eq, hr.color_eq⟩, ihl, ihr⟩
  | black _ _ ihl ihr => exact ⟨nofun, ihl, ihr⟩

/-- Colours fit together whatever the black nodes on the paths. -/
theorem redRule_plug (h : Around ctx p n) (ht : RedRule t) (hp : p = .red → t.color = .black) :
    RedRule (plug ctx t) ∧ (plug ctx t).color = .black := by
  induction h generalizing t with
  | root => exact ⟨ht, hp rfl⟩
  | red hs _ ih =>
    refine ih (redRule_branch.mpr ⟨fun _ => ⟨hp rfl, hs.color_eq⟩, ht, hs.redRule⟩) nofun
  | black hs _ ih =>
    exact ih (redRule_branch.mpr ⟨nofun, ht, hs.redRule⟩) fun _ => color_branch

/-- The ways that pass one place are exactly one black node short, the others have `k + 1`. -/
def Short (t : ColorTree α) (d : Dir) (x : α) (k : Nat) : Prop :=
  ∀ q, Way t q → (Passes q d x → blackCount q = k) ∧ (¬ Passes q d x → blackCount q = k + 1)

private theorem passes_cons {d' : Dir} :
    Passes ((d', c, y) :: q) d x ↔ d' = d ∧ y = x ∨ Passes q d x := by
  constructor
  · rintro ⟨c', h⟩
    rcases List.mem_cons.mp h with heq | h
    · cases heq
      exact .inl ⟨rfl, rfl⟩
    · exact .inr ⟨c', h⟩
  · rintro (⟨rfl, rfl⟩ | ⟨c', h⟩)
    · exact ⟨c, .head _⟩
    · exact ⟨c', .tail _ h⟩

theorem Way.not_passes (h : Way t q) (hx : x ∉ t.toList) : ¬ Passes q d x := fun ⟨_, hn⟩ =>
  hx (h.mem hn)

private theorem blackCount_cons (d : Dir) (c : Color) (y : α) (q : List (Dir × Color × α)) :
    blackCount ((d, c, y) :: q) = blackCount q + if c = .black then 1 else 0 := by
  rw [blackCount, List.countP_cons, blackCount]
  simp

/-- A way that turns into the sibling at `y` does not pass the place, and is not short. -/
theorem Way.through_sibling {r : List (Dir × Color × α)} (hr : Way sib r)
    (hs : Balanced sib c (k + 1)) (hsx : x ∉ sib.toList) (d' : Dir) (c' : Color)
    (hne : ¬ (d' = d ∧ y = x)) :
    ¬ Passes ((d', c', y) :: r) d x ∧
      blackCount ((d', c', y) :: r) = (k + if c' = .black then 1 else 0) + 1 := by
  rw [passes_cons, blackCount_cons, hs.blackCount_eq hr]
  refine ⟨fun hp => hp.elim hne (hr.not_passes hsx), ?_⟩
  omega

/-- A node with a subtree that is short on one side is short there. -/
theorem Short.branch (h : Short t d x k) (d' : Dir) (c' : Color) (hs : Balanced sib c (k + 1))
    (hyx : y ≠ x) (hsx : x ∉ sib.toList) :
    Short (branch d' c' y t sib) d x (k + if c' = .black then 1 else 0) := by
  intro q hq
  rcases way_branch.mp hq with ⟨r, rfl, hr⟩ | ⟨r, rfl, hr⟩
  · have hpass : Passes ((d', c', y) :: r) d x ↔ Passes r d x := by
      rw [passes_cons]
      exact or_iff_right fun hyx' => hyx hyx'.2
    rw [hpass, blackCount_cons]
    exact ⟨fun hp => by rw [(h r hr).1 hp], fun hp => by rw [(h r hr).2 hp]; omega⟩
  · have hne : ¬ (d'.flip = d ∧ y = x) := fun hyx' => hyx hyx'.2
    have hfar := hr.through_sibling hs hsx d'.flip c' hne
    exact ⟨fun hp => absurd hp hfar.1, fun _ => hfar.2⟩

/-- It stays short there as a part of a larger tree. -/
theorem short_plug (ctx : List (Frame α)) (h : Around ctx p (k + 1)) (ht : Short t d x k)
    (hx : ∀ f ∈ ctx, f.value ≠ x ∧ x ∉ f.sibling.toList) : ∃ N, Short (plug ctx t) d x N := by
  induction ctx generalizing t p k with
  | nil => exact ⟨k, ht⟩
  | cons f ctx ih =>
    have hf := hx f (.head _)
    have hrest : ∀ f ∈ ctx, f.value ≠ x ∧ x ∉ f.sibling.toList := fun f hf => hx f (.tail _ hf)
    cases h with
    | red hs h => exact ih h (ht.branch _ .red hs hf.1 hf.2) hrest
    | black hs h => exact ih h (ht.branch _ .black hs hf.1 hf.2) hrest

/-- A hole that is filled with one black node too few makes its place short. -/
theorem short_hole (d : Dir) (c' : Color) (ht : Balanced t c n) (hs : Balanced sib p (n + 1))
    (hsx : x ∉ sib.toList) :
    Short (branch d c' x t sib) d x (n + if c' = .black then 1 else 0) := by
  intro q hq
  rcases way_branch.mp hq with ⟨r, rfl, hr⟩ | ⟨r, rfl, hr⟩
  · refine ⟨fun _ => ?_, fun hp => absurd (passes_cons.mpr (.inl ⟨rfl, rfl⟩)) hp⟩
    rw [blackCount_cons, ht.blackCount_eq hr]
  · have hne : ¬ (d.flip = d ∧ x = x) := by cases d <;> simp [Dir.flip]
    have hfar := hr.through_sibling hs hsx d.flip c' hne
    exact ⟨fun hp => absurd hp hfar.1, fun _ => hfar.2⟩

/-- Filling a hole with one black node too few makes its place the short one. -/
theorem short_around {f : Frame α} (ha : Around (f :: ctx) p (n + 1)) (ht : Balanced t c n)
    (hsib : f.value ∉ f.sibling.toList)
    (hctx : ∀ g ∈ ctx, g.value ≠ f.value ∧ f.value ∉ g.sibling.toList) :
    ∃ N, Short (plug (f :: ctx) t) f.dir f.value N := by
  obtain ⟨d, c', x, sib⟩ := f
  cases ha with
  | red hs ha => exact short_plug ctx ha (short_hole d .red ht hs hsib) hctx
  | black hs ha => exact short_plug ctx ha (short_hole d .black ht hs hsib) hctx

/-- Beside a hole that asks for a black node there is a sibling. -/
theorem Around.sibling_root {f : Frame α} (ha : Around (f :: ctx) p (n + 1)) :
    ∃ y, f.sibling.root = some y := by
  have hne : f.sibling ≠ .nil := by
    cases ha with
    | red hs => exact hs.ne_nil
    | black hs => exact hs.ne_nil
  exact Option.ne_none_iff_exists'.mp fun h => hne (root_eq_none.mp h)

end CommonProject.Foundations.RedBlack
