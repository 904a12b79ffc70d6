import CommonProject.Foundations.RedBlack

/-! The red-black rules, and what rebalancing makes of one violation. -/
namespace CommonProject.Foundations.RedBlack
open ColorTree
variable {α : Type}

/-- `Balanced t c n`: the root of `t` has the colour `c`, no red node has a red child, and every
path down to a leaf passes `n` black nodes. -/
inductive Balanced : ColorTree α → Color → Nat → Prop
  | nil : Balanced .nil .black 0
  | red {l r : ColorTree α} {x : α} {n : Nat} : Balanced l .black n → Balanced r .black n →
      Balanced (.node .red l x r) .red n
  | black {l r : ColorTree α} {x : α} {c c' : Color} {n : Nat} : Balanced l c n → Balanced r c' n →
      Balanced (.node .black l x r) .black (n + 1)

/-- `Around ctx p n`: a hole below a node of the colour `p` whose filling must have `n` black
nodes on each path for the whole to be balanced. The root hangs below red, as it must be black. -/
inductive Around : List (Frame α) → Color → Nat → Prop
  | root {n : Nat} : Around [] .red n
  | red {d : Dir} {x : α} {sib : ColorTree α} {ctx : List (Frame α)} {n : Nat} :
      Balanced sib .black n → Around ctx .black n → Around (⟨d, .red, x, sib⟩ :: ctx) .red n
  | black {d : Dir} {x : α} {sib : ColorTree α} {ctx : List (Frame α)} {c p : Color} {n : Nat} :
      Balanced sib c n → Around ctx p (n + 1) → Around (⟨d, .black, x, sib⟩ :: ctx) .black n

variable {t near far sib : ColorTree α} {c c' p : Color} {n N : Nat} {d : Dir} {x : α}
  {ctx : List (Frame α)}

theorem Balanced.color_eq (h : Balanced t c n) : t.color = c := by cases h <;> rfl

theorem Balanced.ne_nil (h : Balanced t c (n + 1)) : t ≠ .nil := by
  rintro rfl
  cases h

theorem Balanced.exists_root (h : Balanced t .red n) : ∃ x, t.root = some x := by
  cases h with
  | red => exact ⟨_, rfl⟩

theorem paint_color (h : t.color = c) : t.paint c = t := by
  cases t with
  | nil => rfl
  | node => rw [← h]; rfl

theorem Balanced.paint (h : Balanced t c n) : t.paint c = t := paint_color h.color_eq

theorem balanced_red_branch :
    Balanced (branch d .red x near far) c n ↔
      c = .red ∧ Balanced near .black n ∧ Balanced far .black n := by
  constructor
  · intro h
    cases d <;> cases h <;> exact ⟨rfl, ‹_›, ‹_›⟩
  · rintro ⟨rfl, hn, hf⟩
    cases d
    · exact .red hn hf
    · exact .red hf hn

theorem balanced_black_branch :
    Balanced (branch d .black x near far) c n ↔
      c = .black ∧ ∃ m c₁ c₂, n = m + 1 ∧ Balanced near c₁ m ∧ Balanced far c₂ m := by
  constructor
  · intro h
    cases d <;> cases h <;> exact ⟨rfl, _, _, _, rfl, ‹_›, ‹_›⟩
  · rintro ⟨rfl, m, c₁, c₂, rfl, hn, hf⟩
    cases d
    · exact .black hn hf
    · exact .black hf hn

theorem Balanced.branch_red (hn : Balanced near .black n) (hf : Balanced far .black n) :
    Balanced (branch d .red x near far) .red n := balanced_red_branch.mpr ⟨rfl, hn, hf⟩

theorem Balanced.branch_black (hn : Balanced near c n) (hf : Balanced far c' n) :
    Balanced (branch d .black x near far) .black (n + 1) :=
  balanced_black_branch.mpr ⟨rfl, n, c, c', rfl, hn, hf⟩

/-- A red root can be made black, at the price of one more black node. -/
theorem Balanced.paint_black (h : Balanced t .red n) : Balanced (t.paint .black) .black (n + 1) := by
  cases h with
  | red hl hr => exact .black hl hr

theorem Around.plug (h : Around ctx p n) (ht : Balanced t c n) (hp : p = .red → c = .black) :
    ∃ N, Balanced (plug ctx t) .black N := by
  induction h generalizing t c with
  | root => exact ⟨_, hp rfl ▸ ht⟩
  | red hs _ ih =>
    obtain rfl := hp rfl
    exact ih (.branch_red ht hs) nofun
  | black hs _ ih => exact ih (.branch_black ht hs) fun _ => rfl

/-- Every place in a balanced tree. -/
theorem Balanced.around (h : Balanced (plug ctx t) .black N) :
    ∃ p c n, Around ctx p n ∧ Balanced t c n ∧ (p = .red → c = .black) := by
  induction ctx generalizing t with
  | nil => exact ⟨_, _, _, .root, h, fun _ => rfl⟩
  | cons f ctx ih =>
    obtain ⟨p, c, n, ha, hb, hp⟩ := ih h
    obtain ⟨d, cf, x, sib⟩ := f
    cases cf with
    | red =>
      obtain ⟨rfl, ht, hs⟩ := balanced_red_branch.mp hb
      cases p with
      | red => cases hp rfl
      | black => exact ⟨_, _, _, .red hs ha, ht, fun _ => rfl⟩
    | black =>
      obtain ⟨rfl, m, c₁, c₂, rfl, ht, hs⟩ := balanced_black_branch.mp hb
      exact ⟨_, _, _, .black hs ha, ht, nofun⟩

section Insert
variable {f g : Frame α}

theorem insertRotate_balanced {q : α} {uncle : ColorTree α} {dp dg : Dir} {y : α}
    (hu : Balanced uncle .black n) (hs : Balanced sib .black n) (ht : Balanced t .red n) :
    Balanced (insertRotate ⟨dp, .red, y, sib⟩ ⟨dg, .black, q, uncle⟩ t) .black (n + 1) := by
  simp only [insertRotate, hs.paint]
  split
  · exact .branch_black ht (.branch_red hs hu)
  · cases t with
    | nil => cases ht
    | node ct l z r =>
      rw [node_eq_branch dg] at ht
      obtain rfl : ct = .red := ht.color_eq.symm.trans (by simp) |>.symm
      obtain ⟨-, ha, hb⟩ := balanced_red_branch.mp ht
      simp only [ha.paint, hb.paint]
      exact .branch_black (.branch_red hs ha) (.branch_red hb hu)

private theorem insertFix_balanced (h : Around ctx p n) (ht : Balanced t .red n) :
    ∃ N, Balanced (insertFix ctx t) .black N := by
  fun_induction insertFix ctx t generalizing p n with
  | case1 t => exact ⟨_, ht.paint_black⟩
  | case2 f t =>
    cases h with
    | red _ h => cases h
    | black hs _ => exact ⟨_, .branch_black ht hs⟩
  | case3 f g ctx t hb =>
    cases h with
    | red => cases hb
    | black hs h => exact (Around.black hs h).plug ht (by simp)
  | case4 f g ctx t hr hu ih =>
    cases h with
    | black => exact absurd rfl hr
    | red hs h =>
      cases h with
      | black hun h =>
        obtain rfl := hun.color_eq.symm.trans hu
        exact ih h (.branch_red (.branch_black ht hs) hun.paint_black)
  | case5 f g ctx t hr hu =>
    cases h with
    | black => exact absurd rfl hr
    | red hs h =>
      cases h with
      | @black _ _ _ _ c _ _ hun h =>
        obtain rfl : c = .black := Color.eq_black (hun.color_eq ▸ hu)
        exact h.plug (insertRotate_balanced hun hs ht) fun _ => rfl

/-- Inserting a node keeps a tree balanced. -/
theorem insert_balanced (h : Balanced (plug ctx .nil) .black N) :
    ∃ M, Balanced (insertFix ctx (.node .red .nil x .nil)) .black M := by
  obtain ⟨p, c, n, ha, hnil, -⟩ := h.around
  cases hnil
  exact insertFix_balanced ha (.red .nil .nil)

end Insert
section Erase
variable {s u : α}

/-- What a rotation makes up for: the hole was one black node short below a black sibling. -/
theorem EraseRotates.balanced {u : ColorTree α} (h : EraseRotates d c x t sib (some u))
    (hs : Balanced sib .black (n + 1)) (ht : Balanced t .black n) :
    (c = .red → Balanced u .red (n + 1)) ∧ (c = .black → Balanced u .black (n + 2)) := by
  cases h with
  | @far cs _ near far hfar =>
    obtain rfl : cs = .black := by simpa using hs.color_eq
    obtain ⟨-, m, c₁, c₂, hm, hn, hf⟩ := balanced_black_branch.mp hs
    obtain rfl : n = m := by omega
    obtain rfl : c₂ = .red := hf.color_eq.symm.trans hfar
    have hp := Balanced.branch_black (d := d) (x := x) ht hn
    refine ⟨?_, ?_⟩ <;> rintro rfl
    · exact .branch_red hp hf.paint_black
    · exact .branch_black hp hf.paint_black
  | @near cs _ y a b far hfar =>
    obtain rfl : cs = .black := by simpa using hs.color_eq
    obtain ⟨-, m, c₁, c₂, hm, hn, hf⟩ := balanced_black_branch.mp hs
    obtain rfl : n = m := by omega
    obtain ⟨-, ha, hb⟩ := balanced_red_branch.mp hn
    have hp := Balanced.branch_black (d := d) (x := x) ht ha
    rw [hb.paint]
    refine ⟨?_, ?_⟩ <;> rintro rfl
    · exact .branch_red hp (.branch_black hb hf)
    · exact .branch_black hp (.branch_black hb hf)

theorem EraseRotates.flip_balanced (h : EraseRotates d c x t sib none)
    (hs : Balanced sib .black (n + 1)) : Balanced (sib.paint .red) .red n := by
  cases h with
  | @flip cs _ near far hnear hfar =>
    obtain rfl : cs = .black := by simpa using hs.color_eq
    obtain ⟨-, m, c₁, c₂, hm, hn, hf⟩ := balanced_black_branch.mp hs
    obtain rfl : n = m := by omega
    obtain rfl : c₁ = .black := hn.color_eq.symm.trans hnear
    obtain rfl : c₂ = .black := hf.color_eq.symm.trans hfar
    rw [paint_branch]
    exact .branch_red hn hf
  | leaf => cases hs

theorem eraseRotate_balanced {f : Frame α} {u : ColorTree α} (h : eraseRotate f t = some u)
    (hs : Balanced f.sibling .black (n + 1)) (ht : Balanced t .black n) :
    (f.color = .red → Balanced u .red (n + 1)) ∧ (f.color = .black → Balanced u .black (n + 2)) := by
  have hspec := eraseRotate_spec f t
  rw [h] at hspec
  exact hspec.balanced hs ht

theorem flipSibling_balanced {f : Frame α} (h : eraseRotate f t = none)
    (hs : Balanced f.sibling .black (n + 1)) (ht : Balanced t .black n) :
    Balanced ((f.flipSibling .black).fill t) .black (n + 1) := by
  have hspec := eraseRotate_spec f t
  rw [h] at hspec
  exact .branch_black ht (hspec.flip_balanced hs)

/-- With a red parent the violation ends where it is. -/
theorem settle_balanced {f : Frame α} (hf : f.color = .red)
    (hs : Balanced f.sibling .black (n + 1)) (ht : Balanced t .black n) :
    ∃ c, Balanced ((eraseRotate f t).getD ((f.flipSibling .black).fill t)) c (n + 1) := by
  cases h : eraseRotate f t with
  | none => exact ⟨_, flipSibling_balanced h hs ht⟩
  | some u => exact ⟨_, (eraseRotate_balanced h hs ht).1 hf⟩

private theorem red_sibling_balanced {l r : ColorTree α}
    (h : Around (⟨d, c, x, .node .red l s r⟩ :: ctx) p (n + 1)) (ht : Balanced t .black n) :
    let q : Frame α := ⟨d, .red, x, ((ColorTree.node .red l s r).child d).paint .black⟩
    ∃ N, Balanced (plug ctx (Frame.fill ⟨d, c, s, (ColorTree.node .red l s r).child d.flip⟩
      ((eraseRotate q t).getD ((q.flipSibling .black).fill t)))) .black N := by
  intro q
  cases h with
  | red hs => cases hs
  | black hs h =>
    have hcs := hs.color_eq
    rw [node_eq_branch d] at hs
    obtain rfl := hcs
    obtain ⟨-, hnear, hfar⟩ := balanced_red_branch.mp hs
    have hq : Balanced q.sibling .black (n + 1) := by
      rw [show q.sibling = _ from hnear.paint]
      exact hnear
    obtain ⟨c, hu⟩ := settle_balanced rfl hq ht
    exact h.plug (.branch_black hu hfar) fun _ => rfl

theorem Balanced.black_of_ne (h : Balanced sib c n) (hne : ∀ l s r, sib = .node .red l s r → False) :
    c = .black := by
  cases h with
  | red => exact (hne _ _ _ rfl).elim
  | _ => rfl

private theorem eraseFix_balanced (h : Around ctx p (n + 1)) (ht : Balanced t .black n) :
    ∃ N, Balanced (eraseFix ctx t) .black N := by
  fun_induction eraseFix ctx t generalizing p n with
  | case1 t => exact ⟨_, ht⟩
  | case2 f ctx t l s r hsib =>
    obtain ⟨d, c, x, sib⟩ := f
    obtain rfl : sib = .node .red l s r := hsib
    exact red_sibling_balanced h ht
  | case3 f ctx t u hu hne =>
    obtain ⟨d, c, x, sib⟩ := f
    cases h with
    | red hs h => exact h.plug ((eraseRotate_balanced hu hs ht).1 rfl) (by simp)
    | black hs h =>
      obtain rfl := hs.black_of_ne hne
      exact h.plug ((eraseRotate_balanced hu hs ht).2 rfl) fun _ => rfl
  | case4 f ctx t hnone hred hne =>
    obtain ⟨d, c, x, sib⟩ := f
    cases h with
    | red hs h => exact h.plug (flipSibling_balanced hnone hs ht) fun _ => rfl
    | black => cases hred
  | case5 f ctx t hnone hred hne ih =>
    obtain ⟨d, c, x, sib⟩ := f
    cases h with
    | red => exact absurd rfl hred
    | black hs h =>
      obtain rfl := hs.black_of_ne hne
      exact ih h (flipSibling_balanced hnone hs ht)

theorem firstOf_append (c : Color) (l : ColorTree α) (x : α) (r : ColorTree α) (path q : List (Frame α)) :
    firstOf c l x r (path ++ q) =
      ((firstOf c l x r path).1 ++ q, (firstOf c l x r path).2) := by
  fun_induction firstOf c l x r path with
  | case1 => rfl
  | case2 c cl ll xl rl x r path ih => exact ih

/-- One step down; what stands at the node left behind does not matter. -/
theorem Around.descend (h : Around ctx p n) (hb : Balanced (branch d c x near far) c n)
    (hp : p = .red → c = .black) (y : α) :
    ∃ p' n', Around (⟨d, c, y, far⟩ :: ctx) p' n' ∧ Balanced near near.color n' ∧
      (p' = .red → near.color = .black) := by
  cases c with
  | red =>
    obtain ⟨-, hn, hf⟩ := balanced_red_branch.mp hb
    cases p with
    | red => cases hp rfl
    | black => exact ⟨_, _, .red hf h, hn.color_eq.symm ▸ hn, fun _ => hn.color_eq⟩
  | black =>
    obtain ⟨-, m, c₁, c₂, rfl, hn, hf⟩ := balanced_black_branch.mp hb
    exact ⟨_, _, .black hf h, hn.color_eq.symm ▸ hn, nofun⟩

/-- The first node below a balanced node is in a balanced place. -/
theorem firstOf_balanced {l r child : ColorTree α} {path path' : List (Frame α)}
    (h : firstOf c l x r path = (path', c', s, child)) (ha : Around path p n)
    (hb : Balanced (.node c l x r) c n) (hp : p = .red → c = .black) :
    ∃ p' n', Around path' p' n' ∧ Balanced (.node c' .nil s child) c' n' ∧
      (p' = .red → c' = .black) := by
  fun_induction firstOf c l x r path generalizing p n with
  | case1 c x r path =>
    cases h
    exact ⟨p, n, ha, hb, hp⟩
  | case2 c cl ll xl rl x r path ih =>
    obtain ⟨p', n', ha', hb', hp'⟩ := ha.descend (d := .left) hb hp x
    exact ih h ha' hb' hp'

/-- A node with at most one child can be replaced by it. -/
theorem replace_balanced {child : ColorTree α} (ha : Around ctx p n)
    (hb : Balanced (branch d c x .nil child) c n) :
    (child = .nil → c = .black → ∃ N, Balanced (eraseFix ctx .nil) .black N) ∧
    (child = .nil → c = .red → ∃ N, Balanced (plug ctx .nil) .black N) ∧
    (child ≠ .nil → c = .black ∧ ∃ N, Balanced (plug ctx (child.paint .black)) .black N) := by
  cases c with
  | red =>
    obtain ⟨-, hnil, hchild⟩ := balanced_red_branch.mp hb
    cases hnil
    refine ⟨nofun, fun _ _ => ha.plug .nil fun _ => rfl, fun hne => ?_⟩
    cases hchild
    exact absurd rfl hne
  | black =>
    obtain ⟨-, m, c₁, c₂, rfl, hnil, hchild⟩ := balanced_black_branch.mp hb
    cases hnil
    refine ⟨fun _ _ => eraseFix_balanced ha .nil, nofun, fun hne => ⟨rfl, ?_⟩⟩
    cases c₂ with
    | red => exact ha.plug hchild.paint_black fun _ => rfl
    | black =>
      cases hchild
      exact absurd rfl hne

/-- What is left at a deficient place is empty, where one black node is asked for. -/
theorem splice_deficit {l r : ColorTree α} (h : Balanced (plug ctx (.node c l x r)) .black N) :
    (splice ctx c l r).2.2 = true →
      (splice ctx c l r).2.1 = .nil ∧ ∃ p, Around (splice ctx c l r).1 p 1 := by
  obtain ⟨p, c₀, n, ha, hb, hp⟩ := h.around
  obtain rfl : c₀ = c := hb.color_eq.symm
  fun_cases splice ctx c₀ l r with
  | case1 =>
    intro hs
    obtain rfl : c₀ = .black := by simpa using hs
    cases hb with
    | black hl hr =>
      cases hl
      exact ⟨rfl, p, ha⟩
  | case2 => simp
  | case3 => simp
  | case4 l cr rl y rr hne path cs s child hfirst =>
    intro hs
    simp only [Bool.and_eq_true, beq_iff_eq, Option.isNone_iff_eq_none] at hs
    obtain ⟨rfl, hchild⟩ := hs
    obtain ⟨p', n', ha', hb', hp'⟩ := ha.descend (d := .right) hb hp s
    have hall := firstOf_append cr rl y rr [] (⟨.right, c₀, s, l⟩ :: ctx)
    rw [hfirst] at hall
    obtain ⟨p'', n'', ha'', hb'', -⟩ := firstOf_balanced hall ha' hb' hp'
    cases child with
    | node => cases hchild
    | nil =>
      cases hb'' with
      | black hl hr =>
        cases hl
        exact ⟨rfl, p'', ha''⟩

/-- Erasing a node keeps a tree balanced. -/
theorem eraseNode_balanced {l r : ColorTree α} (h : Balanced (plug ctx (.node c l x r)) .black N) :
    ∃ N, Balanced (eraseNode ctx c l r) .black N := by
  obtain ⟨p, c₀, n, ha, hb, hp⟩ := h.around
  obtain rfl : c₀ = c := hb.color_eq.symm
  simp only [eraseNode]
  fun_cases splice ctx c₀ l r with
  | case1 =>
    obtain ⟨h1, h2, -⟩ := replace_balanced (d := .left) ha hb
    cases c₀ with
    | red => exact h2 rfl rfl
    | black => exact h1 rfl rfl
  | case2 r hne =>
    obtain ⟨rfl, h3⟩ := (replace_balanced (d := .left) ha hb).2.2 hne
    exact h3
  | case3 l hne =>
    obtain ⟨rfl, h3⟩ := (replace_balanced (d := .right) ha hb).2.2 hne
    exact h3
  | case4 l cr rl y rr hne path cs s child hfirst =>
    obtain ⟨p', n', ha', hb', hp'⟩ := ha.descend (d := .right) hb hp s
    have hall := firstOf_append cr rl y rr [] (⟨.right, c₀, s, l⟩ :: ctx)
    rw [hfirst] at hall
    obtain ⟨p'', n'', ha'', hb'', -⟩ := firstOf_balanced hall ha' hb' hp'
    obtain ⟨h1, h2, h3⟩ := replace_balanced (d := .left) ha'' hb''
    cases child with
    | nil =>
      cases cs with
      | red => exact h2 rfl rfl
      | black => exact h1 rfl rfl
    | node =>
      obtain ⟨rfl, h3⟩ := h3 (by simp)
      exact h3

end Erase
end CommonProject.Foundations.RedBlack
