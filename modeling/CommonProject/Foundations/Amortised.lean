import CommonProject.Foundations.Balance

/-! What rebalancing costs on average: black nodes with two children of one colour pay for it. -/
namespace CommonProject.Foundations.RedBlack
open ColorTree
variable {α : Type}

/-- The turns of the loop that makes room for a red node. -/
def insertTurns : List (Frame α) → ColorTree α → Nat
  | [], _ => 1
  | [_], _ => 1
  | p :: g :: ctx, t =>
    if p.color = .black then 1
    else if g.sibling.color = .red then
      insertTurns ctx (branch g.dir .red g.value (Frame.fill { p with color := .black } t)
        (g.sibling.paint .black)) + 1
    else 1

/-- The turns of the loop that makes up for a missing black node. -/
def eraseTurns : List (Frame α) → ColorTree α → Nat
  | [], _ => 0
  | f :: ctx, t =>
    match f.sibling with
    | .node .red _ _ _ => 1
    | _ =>
      match eraseRotate f t with
      | some _ => 1
      | none => if f.color = .red then 1 else eraseTurns ctx ((f.flipSibling .black).fill t) + 1

/-- What a black node with children of these colours holds. -/
def weight : Color → Color → Nat
  | .red, .red => 2
  | .black, .black => 1
  | _, _ => 0

def Color.weight (c c₁ c₂ : Color) : Nat :=
  match c with
  | .red => 0
  | .black => RedBlack.weight c₁ c₂

def ColorTree.potential : ColorTree α → Nat
  | .nil => 0
  | .node c l _ r => l.potential + r.potential + c.weight l.color r.color

/-- What the nodes around a hole hold that is filled with a root of this colour. -/
def contextPotential : List (Frame α) → Color → Nat
  | [], _ => 0
  | f :: ctx, c => f.sibling.potential + f.color.weight c f.sibling.color + contextPotential ctx f.color

variable {t near far sib : ColorTree α} {c c' p : Color} {n N : Nat} {d : Dir} {x : α}
  {ctx : List (Frame α)}

private theorem weight_comm (c c' : Color) :
    weight c c' = weight c' c := by cases c <;> cases c' <;> rfl

private theorem weight_le (c c' : Color) : weight c c' ≤ 2 := by cases c <;> cases c' <;> decide

@[simp] theorem Color.weight_red (c₁ c₂ : Color) : Color.red.weight c₁ c₂ = 0 := rfl

@[simp] theorem Color.weight_black (c₁ c₂ : Color) :
    Color.black.weight c₁ c₂ = RedBlack.weight c₁ c₂ := rfl

@[simp] theorem potential_nil : (nil : ColorTree α).potential = 0 := rfl

@[simp] theorem potential_branch : (branch d c x near far).potential =
    near.potential + far.potential + c.weight near.color far.color := by
  cases d with
  | left => rfl
  | right =>
    cases c with
    | red => exact congrArg (· + 0) (Nat.add_comm ..)
    | black => exact congrArg₂ (· + ·) (Nat.add_comm ..) (weight_comm ..)

/-- The nodes of a tree hold what those in the hole and those around it do. -/
theorem potential_plug (ctx : List (Frame α)) (t : ColorTree α) :
    (plug ctx t).potential = t.potential + contextPotential ctx t.color := by
  induction ctx generalizing t with
  | nil => rfl
  | cons f ctx ih =>
    rw [plug, ih, Frame.fill, potential_branch, color_branch, contextPotential]
    omega

/-- Another colour in the hole matters to the node above it only. -/
theorem contextPotential_le (ctx : List (Frame α)) (c c' : Color) :
    contextPotential ctx c ≤ contextPotential ctx c' + 2 := by
  cases ctx with
  | nil => exact Nat.zero_le _
  | cons f ctx =>
    have hweight : f.color.weight c f.sibling.color ≤ 2 := by
      cases f.color with
      | red => exact Nat.zero_le _
      | black => exact weight_le ..
    simp only [contextPotential]
    omega

/-- A black root in place of a red one. -/
theorem contextPotential_black_le (ctx : List (Frame α)) :
    contextPotential ctx .black ≤ contextPotential ctx .red + 1 := by
  cases ctx with
  | nil => exact Nat.zero_le _
  | cons f ctx =>
    have hweight : f.color.weight .black f.sibling.color ≤ f.color.weight .red f.sibling.color + 1 := by
      cases f.color with
      | red => exact Nat.zero_le _
      | black => cases f.sibling.color <;> decide
    simp only [contextPotential]
    omega

private theorem potential_paint_black (h : Balanced t .red n) :
    (t.paint .black).potential = t.potential + 1 := by
  cases h with
  | red hl hr => simp [paint, potential, hl.color_eq, hr.color_eq, weight]

section Insert

/-- The rotations leave a black root with two red children. -/
theorem potential_insertRotate {q y : α} {uncle : ColorTree α} {dp dg : Dir}
    (hs : Balanced sib .black n) (ht : Balanced t .red n) :
    (insertRotate ⟨dp, .red, y, sib⟩ ⟨dg, .black, q, uncle⟩ t).potential =
      t.potential + sib.potential + uncle.potential + 2 := by
  simp only [insertRotate, hs.paint]
  split
  · simp only [potential_branch, color_branch, Color.weight_red, Color.weight_black, ht.color_eq, weight]
    omega
  · cases t with
    | nil => cases ht
    | node ct l z r =>
      have hpot := (congrArg potential (node_eq_branch dg ct l z r)).trans potential_branch
      rw [node_eq_branch dg] at ht
      obtain rfl : ct = .red := ht.color_eq.symm.trans (by simp) |>.symm
      obtain ⟨-, ha, hb⟩ := balanced_red_branch.mp ht
      simp only [ha.paint, hb.paint, potential_branch, color_branch, Color.weight_red,
        Color.weight_black, weight, hpot]
      omega

/-- Every turn but the last one is paid for by the black node whose children were both red. -/
theorem insertTurns_add_potential_le (h : Around ctx p n) (ht : Balanced t .red n) :
    insertTurns ctx t + (insertFix ctx t).potential ≤
      t.potential + contextPotential ctx .black + 3 := by
  fun_induction insertFix ctx t generalizing p n with
  | case1 t =>
    rw [insertTurns, potential_paint_black ht]
    omega
  | case2 f t =>
    have hle := contextPotential_le [f] .red .black
    have hplug := potential_plug [f] t
    rw [ht.color_eq] at hplug
    change 1 + (plug [f] t).potential ≤ _
    omega
  | case3 f g ctx t hb =>
    have hle := contextPotential_le (f :: g :: ctx) .red .black
    rw [insertTurns, if_pos hb, potential_plug, ht.color_eq]
    omega
  | case4 f g ctx t hr hu ih =>
    obtain ⟨dp, cp, y, s⟩ := f
    obtain ⟨d, cg, z, u⟩ := g
    cases h with
    | black => exact absurd rfl hr
    | red hs h =>
      cases h with
      | black hun h =>
        obtain rfl := hun.color_eq.symm.trans hu
        have hrest := ih h (.branch_red (.branch_black ht hs) hun.paint_black)
        rw [insertTurns, if_neg hr, if_pos hu]
        simp only [potential_branch, Frame.fill, potential_paint_black hun, color_branch,
          Color.weight_red, Color.weight_black, ht.color_eq, hs.color_eq, hun.color_eq,
          contextPotential, weight] at hrest ⊢
        omega
  | case5 f g ctx t hr hu =>
    obtain ⟨dp, cp, y, s⟩ := f
    obtain ⟨d, cg, z, u⟩ := g
    cases h with
    | black => exact absurd rfl hr
    | red hs h =>
      cases h with
      | @black _ _ _ _ c _ _ hun h =>
        obtain rfl : c = .black := Color.eq_black (hun.color_eq ▸ hu)
        have hcolor : (insertRotate ⟨dp, .red, y, s⟩ ⟨d, .black, z, u⟩ t).color = .black :=
          (insertRotate_balanced hun hs ht).color_eq
        rw [insertTurns, if_neg hr, if_neg hu, potential_plug, hcolor, potential_insertRotate hs ht]
        simp only [contextPotential, Color.weight_red, Color.weight_black]
        omega

/-- So an insertion costs three on average. -/
theorem insert_amortised (h : Balanced (plug ctx .nil) .black N) :
    insertTurns ctx (.node .red .nil x .nil) + (insertFix ctx (.node .red .nil x .nil)).potential ≤
      (plug ctx .nil).potential + 3 := by
  obtain ⟨p, c, n, ha, hnil, -⟩ := h.around
  cases hnil
  rw [potential_plug]
  exact insertTurns_add_potential_le ha (.red .nil .nil)

end Insert

section Erase
variable {u : ColorTree α}

/-- A rotation below a black sibling, which is one black node up. -/
theorem EraseRotates.potential_le (h : EraseRotates d c x t sib (some u))
    (hs : Balanced sib .black (n + 1)) (ht : Balanced t .black n) :
    u.potential ≤ t.potential + sib.potential + c.weight .black .black + 2 := by
  cases h with
  | @far cs s near far hfar =>
    obtain rfl : cs = .black := by simpa using hs.color_eq
    obtain ⟨-, m, c₁, c₂, hm, hn, hf⟩ := balanced_black_branch.mp hs
    obtain rfl : c₂ = .red := hf.color_eq.symm.trans hfar
    simp only [potential_branch, color_branch, potential_paint_black hf, hf.paint_black.color_eq,
      ht.color_eq, hn.color_eq, hfar, Color.weight_black]
    cases c₁ <;> simp only [weight] <;> omega
  | @near cs s y a b far hfar =>
    obtain rfl : cs = .black := by simpa using hs.color_eq
    obtain ⟨-, m, c₁, c₂, hm, hn, hf⟩ := balanced_black_branch.mp hs
    obtain ⟨-, ha, hb⟩ := balanced_red_branch.mp hn
    simp only [potential_branch, color_branch, hb.paint, ht.color_eq, ha.color_eq, hb.color_eq, hfar,
      Color.weight_black, Color.weight_red, weight]
    omega

/-- A colour flip of a black sibling takes its weight away. -/
theorem EraseRotates.flip_potential (h : EraseRotates d c x t sib none)
    (hs : Balanced sib .black (n + 1)) : (sib.paint .red).potential + 1 = sib.potential := by
  cases h with
  | @flip cs _ near far hnear hfar =>
    obtain rfl : cs = .black := by simpa using hs.color_eq
    simp only [paint_branch, potential_branch, hnear, hfar, Color.weight_black, Color.weight_red, weight]
  | leaf => cases hs

private theorem potential_flipSibling {f : Frame α} (h : eraseRotate f t = none)
    (hs : Balanced f.sibling .black (n + 1)) (ht : Balanced t .black n) :
    ((f.flipSibling .black).fill t).potential + 1 = t.potential + f.sibling.potential := by
  have hspec := eraseRotate_spec f t
  rw [h] at hspec
  have hflip := hspec.flip_potential hs
  have hcolor := (hspec.flip_balanced hs).color_eq
  simp only [Frame.fill, Frame.flipSibling, potential_branch, ht.color_eq, hcolor, Color.weight_black,
    weight]
  omega

private theorem potential_eraseRotate {f : Frame α} (h : eraseRotate f t = some u)
    (hs : Balanced f.sibling .black (n + 1)) (ht : Balanced t .black n) :
    u.potential ≤ t.potential + f.sibling.potential + f.color.weight .black .black + 2 := by
  have hspec := eraseRotate_spec f t
  rw [h] at hspec
  exact hspec.potential_le hs ht

/-- With a red parent, what is left of the weights is paid by the last turn. -/
theorem potential_settle {f : Frame α} (hf : f.color = .red)
    (hs : Balanced f.sibling .black (n + 1)) (ht : Balanced t .black n) :
    ((eraseRotate f t).getD ((f.flipSibling .black).fill t)).potential +
      weight ((eraseRotate f t).getD ((f.flipSibling .black).fill t)).color .black ≤
        t.potential + f.sibling.potential + 2 := by
  cases h : eraseRotate f t with
  | none =>
    have hpot := potential_flipSibling h hs ht
    have hcolor := (flipSibling_balanced h hs ht).color_eq
    simp only [Option.getD_none, hcolor, weight]
    omega
  | some u =>
    have hpot := potential_eraseRotate h hs ht
    have hcolor := ((eraseRotate_balanced h hs ht).1 hf).color_eq
    rw [hf, Color.weight_red] at hpot
    simp only [Option.getD_some, hcolor, weight]
    omega

private theorem red_sibling_potential {l r : ColorTree α} {s : α}
    (h : Around (⟨d, c, x, .node .red l s r⟩ :: ctx) p (n + 1)) (ht : Balanced t .black n) :
    let q : Frame α := ⟨d, .red, x, ((ColorTree.node .red l s r).child d).paint .black⟩
    1 + (plug ctx (Frame.fill ⟨d, c, s, (ColorTree.node .red l s r).child d.flip⟩
      ((eraseRotate q t).getD ((q.flipSibling .black).fill t)))).potential ≤
        t.potential + contextPotential (⟨d, c, x, .node .red l s r⟩ :: ctx) .black + 3 := by
  intro q
  cases h with
  | red hs => cases hs
  | black hs h =>
    have hpot := (congrArg potential (node_eq_branch d .red l s r)).trans potential_branch
    obtain rfl := hs.color_eq
    rw [node_eq_branch d] at hs
    obtain ⟨-, hnear, hfar⟩ := balanced_red_branch.mp hs
    have hsame : q.sibling = (node .red l s r).child d := hnear.paint
    have hsettle := potential_settle rfl (hsame ▸ hnear) ht
    rw [hsame] at hsettle
    rw [potential_plug, Frame.fill, color_branch, potential_branch, hfar.color_eq, contextPotential,
      hpot]
    simp only [Color.weight_black, Color.weight_red]
    omega

theorem eraseTurns_of_ne {f : Frame α} (hne : ∀ l s r, f.sibling = .node .red l s r → False) :
    eraseTurns (f :: ctx) t = match eraseRotate f t with
      | some _ => 1
      | none => if f.color = .red then 1 else eraseTurns ctx ((f.flipSibling .black).fill t) + 1 := by
  rw [eraseTurns]
  split
  · exact (hne _ _ _ ‹_›).elim
  · rfl

/-- Every turn but the last one is paid for by the node above whose children were both black. -/
theorem eraseTurns_add_potential_le (h : Around ctx p (n + 1)) (ht : Balanced t .black n) :
    eraseTurns ctx t + (eraseFix ctx t).potential ≤
      t.potential + contextPotential ctx .black + 3 := by
  fun_induction eraseFix ctx t generalizing p n with
  | case1 t =>
    rw [eraseTurns]
    omega
  | case2 f ctx t l s r hsib =>
    obtain ⟨d, c, x, sib⟩ := f
    obtain rfl : sib = .node .red l s r := hsib
    exact red_sibling_potential h ht
  | case3 f ctx t u hu hne =>
    obtain ⟨d, c, x, sib⟩ := f
    rw [eraseTurns_of_ne hne, hu, potential_plug, contextPotential]
    cases h with
    | red hs h =>
      have hpot := potential_eraseRotate hu hs ht
      have hcolor := ((eraseRotate_balanced hu hs ht).1 rfl).color_eq
      simp only [Color.weight_red, hcolor] at hpot ⊢
      omega
    | black hs h =>
      obtain rfl := hs.black_of_ne hne
      have hpot := potential_eraseRotate hu hs ht
      have hcolor := ((eraseRotate_balanced hu hs ht).2 rfl).color_eq
      simp only [Color.weight_black, hs.color_eq, hcolor] at hpot ⊢
      omega
  | case4 f ctx t hnone hred hne =>
    obtain ⟨d, c, x, sib⟩ := f
    obtain rfl : c = .red := hred
    rw [eraseTurns_of_ne hne, hnone, if_pos rfl, potential_plug, contextPotential]
    cases h with
    | red hs h =>
      have hpot := potential_flipSibling hnone hs ht
      have hcolor := (flipSibling_balanced hnone hs ht).color_eq
      have hcontext := contextPotential_black_le ctx
      simp only [Color.weight_red, hcolor] at hpot ⊢
      omega
  | case5 f ctx t hnone hred hne ih =>
    obtain ⟨d, c, x, sib⟩ := f
    rw [eraseTurns_of_ne hne, hnone, if_neg hred, contextPotential]
    cases h with
    | red => exact absurd rfl hred
    | black hs h =>
      obtain rfl := hs.black_of_ne hne
      have hrest := ih h (flipSibling_balanced hnone hs ht)
      have hpot := potential_flipSibling hnone hs ht
      simp only [Color.weight_black, hs.color_eq, weight] at hpot ⊢
      omega

/-- A node with at most one child can be replaced by it. -/
theorem replace_potential_le (ctx : List (Frame α)) {child : ColorTree α}
    (hb : Balanced (branch d c x .nil child) c n) :
    (plug ctx (child.paint .black)).potential ≤
      (plug ctx (branch d c x .nil child)).potential + 1 := by
  rw [potential_plug, potential_plug, potential_branch, color_branch]
  cases c with
  | red =>
    obtain ⟨-, hnil, hchild⟩ := balanced_red_branch.mp hb
    cases hnil
    cases hchild
    have hcontext := contextPotential_black_le ctx
    simp only [paint, color, potential_nil, Color.weight_red]
    omega
  | black =>
    obtain ⟨-, m, c₁, c₂, rfl, hnil, hchild⟩ := balanced_black_branch.mp hb
    cases hnil
    cases c₂ with
    | red =>
      rw [potential_paint_black hchild, hchild.paint_black.color_eq]
      simp only [potential_nil]
      omega
    | black =>
      cases hchild
      simp only [paint, color, potential_nil]
      omega

private theorem splice_potential_le {l r : ColorTree α}
    (h : Balanced (plug ctx (.node c l x r)) .black N) :
    (plug (splice ctx c l r).1 (splice ctx c l r).2.1).potential ≤
      (plug ctx (.node c l x r)).potential + 1 := by
  obtain ⟨p, c₀, n, ha, hb, hp⟩ := h.around
  obtain rfl : c₀ = c := hb.color_eq.symm
  fun_cases splice ctx c₀ l r with
  | case1 => exact replace_potential_le (d := .left) ctx hb
  | case2 r hne =>
    obtain ⟨rfl, -⟩ := (replace_balanced (d := .left) ha hb).2.2 hne
    exact replace_potential_le (d := .left) ctx hb
  | case3 l hne =>
    obtain ⟨rfl, -⟩ := (replace_balanced (d := .right) ha hb).2.2 hne
    exact replace_potential_le (d := .right) ctx hb
  | case4 l cr rl y rr hne path cs s child hfirst =>
    obtain ⟨p', n', ha', hb', hp'⟩ := ha.descend (d := .right) hb hp s
    have hall := firstOf_append cr rl y rr [] (⟨.right, c₀, s, l⟩ :: ctx)
    rw [hfirst] at hall
    obtain ⟨p'', n'', -, hb'', -⟩ := firstOf_balanced hall ha' hb' hp'
    have hle := replace_potential_le (d := .left) (path ++ ⟨.right, c₀, s, l⟩ :: ctx) hb''
    -- the successor's name in the place of `x` does not matter
    have hsame : (plug (path ++ ⟨.right, c₀, s, l⟩ :: ctx) (branch .left cs s .nil child)).potential =
        (plug ctx (node c₀ l x (node cr rl y rr))).potential := by
      have hplug : plug path (branch .left cs s .nil child) = node cr rl y rr := plug_firstOf hfirst
      rw [plug_append, hplug, plug, potential_plug, potential_plug]
      rfl
    exact hsame ▸ hle

/-- So an erasure costs four on average. -/
theorem erase_amortised {l r : ColorTree α} (h : Balanced (plug ctx (.node c l x r)) .black N) :
    (if (splice ctx c l r).2.2 then eraseTurns (splice ctx c l r).1 (splice ctx c l r).2.1 else 0) +
      (eraseNode ctx c l r).potential ≤ (plug ctx (.node c l x r)).potential + 4 := by
  have hle := splice_potential_le h
  have hdeficit := splice_deficit h
  simp only [eraseNode]
  revert hle hdeficit
  generalize (splice ctx c l r).1 = ctx', (splice ctx c l r).2.1 = t', (splice ctx c l r).2.2 = deficit
  intro hle hdeficit
  cases deficit with
  | false =>
    simp only [Bool.false_eq_true, if_false]
    omega
  | true =>
    obtain ⟨rfl, p, ha⟩ := hdeficit rfl
    have hloop := eraseTurns_add_potential_le ha .nil
    rw [potential_plug] at hle
    simp only [if_true, color] at hle ⊢
    omega

end Erase
end CommonProject.Foundations.RedBlack
