import CommonProject.Foundations.Balance

/-! Trees and their mirror images: rebalancing does not prefer a side. -/
namespace CommonProject.Foundations.RedBlack
open ColorTree
variable {α : Type}

def ColorTree.mirror : ColorTree α → ColorTree α
  | .nil => .nil
  | .node c l x r => .node c r.mirror x l.mirror

def Frame.mirror (f : Frame α) : Frame α :=
  { f with dir := f.dir.flip, sibling := f.sibling.mirror }

variable {t near far : ColorTree α} {c : Color} {n : Nat} {d d' : Dir} {x : α}
  {ctx : List (Frame α)}

@[simp] theorem mirror_nil : (nil : ColorTree α).mirror = .nil := rfl

@[simp] theorem mirror_mirror : t.mirror.mirror = t := by
  induction t with
  | nil => rfl
  | node c l x r ihl ihr => rw [mirror, mirror, ihl, ihr]

@[simp] theorem mirror_branch :
    (branch d c x near far).mirror = branch d.flip c x near.mirror far.mirror := by
  cases d <;> rfl

@[simp] theorem root_mirror : t.mirror.root = t.root := by cases t <;> rfl

@[simp] theorem color_mirror : t.mirror.color = t.color := by cases t <;> rfl

@[simp] theorem mirror_paint : (t.paint c).mirror = t.mirror.paint c := by cases t <;> rfl

private theorem child_mirror : t.mirror.child d = (t.child d.flip).mirror := by
  cases t with
  | nil => rfl
  | node => cases d <;> rfl

theorem toList_mirror (t : ColorTree α) : t.mirror.toList = t.toList.reverse := by
  induction t with
  | nil => rfl
  | node c l x r ihl ihr => simp [mirror, toList, ihl, ihr]

private theorem fill_mirror (f : Frame α) (t : ColorTree α) :
    f.mirror.fill t.mirror = (f.fill t).mirror := by
  rw [Frame.fill, Frame.fill, mirror_branch]
  rfl

theorem plug_mirror (ctx : List (Frame α)) (t : ColorTree α) :
    plug (ctx.map Frame.mirror) t.mirror = (plug ctx t).mirror := by
  induction ctx generalizing t with
  | nil => rfl
  | cons f ctx ih => rw [List.map_cons, plug, plug, fill_mirror, ih]

theorem Dir.flip_inj : d.flip = d'.flip ↔ d = d' := by
  cases d <;> cases d' <;> simp [Dir.flip]

section Balance

theorem Balanced.mirror (h : Balanced t c n) : Balanced t.mirror c n := by
  induction h with
  | nil => exact .nil
  | red _ _ ihl ihr => exact .red ihr ihl
  | black _ _ ihl ihr => exact .black ihr ihl

theorem Around.mirror (h : Around ctx c n) : Around (ctx.map Frame.mirror) c n := by
  induction h with
  | root => exact .root
  | red hs _ ih => exact .red hs.mirror ih
  | black hs _ ih => exact .black hs.mirror ih

end Balance

section Rebalancing

private theorem insertRotate_mirror (p g : Frame α) (t : ColorTree α) :
    insertRotate p.mirror g.mirror t.mirror = (insertRotate p g t).mirror := by
  have hdir : p.mirror.dir = g.mirror.dir ↔ p.dir = g.dir := Dir.flip_inj
  simp only [insertRotate, hdir]
  split
  · simp [Frame.mirror]
  · cases t with
    | nil => rfl
    | node ct l y r =>
      have hchild : ∀ d, (ColorTree.node ct r.mirror y l.mirror).child d =
          ((ColorTree.node ct l y r).child d.flip).mirror := fun d =>
        child_mirror (t := .node ct l y r)
      simp only [ColorTree.mirror, hchild, mirror_branch, mirror_paint]
      simp [Frame.mirror]

theorem insertFix_mirror (ctx : List (Frame α)) (t : ColorTree α) :
    insertFix (ctx.map Frame.mirror) t.mirror = (insertFix ctx t).mirror := by
  fun_induction insertFix ctx t with
  | case1 t => simp [insertFix]
  | case2 p t => exact fill_mirror p t
  | case3 p g ctx t hb =>
    have hb' : p.mirror.color = .black := hb
    rw [List.map_cons, List.map_cons, insertFix, if_pos hb']
    exact plug_mirror (p :: g :: ctx) t
  | case4 p g ctx t hp hu ih =>
    have hp' : p.mirror.color ≠ .black := hp
    have hu' : g.mirror.sibling.color = .red := color_mirror.trans hu
    rw [List.map_cons, List.map_cons, insertFix, if_neg hp', if_pos hu', ← ih, mirror_branch,
      ← fill_mirror, mirror_paint]
    rfl
  | case5 p g ctx t hp hu =>
    have hp' : p.mirror.color ≠ .black := hp
    have hu' : g.mirror.sibling.color ≠ .red := fun h => hu (color_mirror.symm.trans h)
    rw [List.map_cons, List.map_cons, insertFix, if_neg hp', if_neg hu', insertRotate_mirror,
      plug_mirror]

/-- The cases leave `eraseRotate` no choice. -/
theorem EraseRotates.eraseRotate_eq {sib : ColorTree α} {u : Option (ColorTree α)}
    (h : EraseRotates d c x t sib u) : eraseRotate ⟨d, c, x, sib⟩ t = u := by
  cases h with
  | far hf => cases d <;> simp_all [eraseRotate, branch, child, Dir.flip]
  | near hf => cases d <;> simp [eraseRotate, branch, child, Dir.flip, hf]
  | @flip cs s near far hn hf =>
    cases near with
    | nil => cases d <;> simp [eraseRotate, branch, child, Dir.flip, hf]
    | node cn a y b =>
      obtain rfl : cn = .black := hn
      cases d <;> simp [eraseRotate, branch, child, Dir.flip, hf]
  | leaf => rfl

theorem EraseRotates.mirror {sib : ColorTree α} {u : Option (ColorTree α)}
    (h : EraseRotates d c x t sib u) :
    EraseRotates d.flip c x t.mirror sib.mirror (u.map ColorTree.mirror) := by
  cases h with
  | far hf =>
    simp only [Option.map_some, mirror_branch, mirror_paint]
    exact .far (color_mirror.trans hf)
  | near hf =>
    simp only [Option.map_some, mirror_branch, mirror_paint]
    exact .near (color_mirror.trans hf)
  | flip hn hf =>
    rw [mirror_branch]
    exact .flip (color_mirror.trans hn) (color_mirror.trans hf)
  | leaf => exact .leaf

private theorem eraseRotate_mirror (f : Frame α) (t : ColorTree α) :
    eraseRotate f.mirror t.mirror = (eraseRotate f t).map ColorTree.mirror :=
  (eraseRotate_spec f t).mirror.eraseRotate_eq

private theorem flipSibling_mirror (f : Frame α) (c : Color) :
    f.mirror.flipSibling c = (f.flipSibling c).mirror := by
  simp [Frame.mirror, Frame.flipSibling]

private theorem settle_mirror (f : Frame α) (t : ColorTree α) :
    (eraseRotate f.mirror t.mirror).getD ((f.mirror.flipSibling .black).fill t.mirror) =
      ((eraseRotate f t).getD ((f.flipSibling .black).fill t)).mirror := by
  rw [eraseRotate_mirror, flipSibling_mirror, fill_mirror, Option.getD_map]

/-- What `eraseFix` does beside a sibling that is not red. -/
theorem eraseFix_cons {f : Frame α} (hne : ∀ l s r, f.sibling ≠ .node .red l s r)
    (ctx : List (Frame α)) (t : ColorTree α) :
    eraseFix (f :: ctx) t = (eraseRotate f t).elim
      (if f.color = .red then plug ctx ((f.flipSibling .black).fill t)
        else eraseFix ctx ((f.flipSibling .black).fill t)) (plug ctx) := by
  rw [eraseFix]
  split
  · exact absurd ‹_› (hne _ _ _)
  · split <;> simp [*]

theorem eraseFix_mirror (ctx : List (Frame α)) (t : ColorTree α) :
    eraseFix (ctx.map Frame.mirror) t.mirror = (eraseFix ctx t).mirror := by
  have hmirror : ∀ {f : Frame α}, (∀ l s r, f.sibling = .node .red l s r → False) →
      ∀ l s r, f.mirror.sibling ≠ .node .red l s r := by
    intro f hne l s r hsib
    refine hne r.mirror s l.mirror ?_
    have hback : f.sibling.mirror.mirror = _ := congrArg ColorTree.mirror hsib
    rwa [mirror_mirror] at hback
  fun_induction eraseFix ctx t with
  | case1 t => rfl
  | case2 f ctx t l s r hsib sibling p g =>
    have hsib' : f.mirror.sibling = .node .red r.mirror s l.mirror := congrArg ColorTree.mirror hsib
    have hp : p.mirror = ⟨f.dir.flip, .red, f.value, (sibling.mirror.child f.dir.flip).paint .black⟩ := by
      simp [p, Frame.mirror, child_mirror]
    have hg : g.mirror = ⟨f.dir.flip, f.color, s, sibling.mirror.child f.dir.flip.flip⟩ := by
      simp [g, Frame.mirror, child_mirror]
    rw [← plug_mirror, ← fill_mirror, ← settle_mirror, hp, hg, List.map_cons, eraseFix, hsib']
    rfl
  | case3 f ctx t u hu hne =>
    rw [List.map_cons, eraseFix_cons (hmirror hne), eraseRotate_mirror, hu]
    exact plug_mirror ctx u
  | case4 f ctx t hnone hred hne =>
    have hred' : f.mirror.color = .red := hred
    rw [List.map_cons, eraseFix_cons (hmirror hne), eraseRotate_mirror, hnone, if_pos hred',
      flipSibling_mirror, fill_mirror]
    exact plug_mirror ctx _
  | case5 f ctx t hnone hred hne ih =>
    have hred' : f.mirror.color ≠ .red := hred
    rw [List.map_cons, eraseFix_cons (hmirror hne), eraseRotate_mirror, hnone, if_neg hred',
      flipSibling_mirror, fill_mirror]
    exact ih

end Rebalancing
end CommonProject.Foundations.RedBlack
