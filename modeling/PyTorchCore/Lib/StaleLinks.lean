import PyTorchCore.Lib.LinkedRing

/-!
# Links of nodes that were taken out of a list

A node that is taken out of a linked list keeps its link.  `Skips` says of the nodes ahead that
every link leads to a later one of them, or to the root, and that what it leaves out may be
passed.
-/

namespace PyTorchCore.Lib

open Function List

universe u

variable {α : Type u}

/-- The link leads over nodes that may be passed. -/
def Leads (f : α → α) (root : α) (passed : α → Prop) (e : α) (ahead : List α) : Prop :=
  ∃ skipped rest, ahead = skipped ++ rest ∧ f e = rest.head?.getD root ∧ ∀ b ∈ skipped, passed b

/-- The links of a node and of the nodes ahead of it. -/
def Skips (f : α → α) (root : α) (passed : α → Prop) : α → List α → Prop
  | e, [] => Leads f root passed e []
  | e, b :: ahead => Leads f root passed e (b :: ahead) ∧ Skips f root passed b ahead

section StaleLinks

variable {f g : α → α} {root e x : α} {passed passed' : α → Prop} {skipped rest ahead : List α}

theorem Skips.leads (h : Skips f root passed e ahead) : Leads f root passed e ahead := by
  cases ahead with
  | nil => exact h
  | cons b ahead => exact h.1

theorem Skips.drop {c : α} (h : Skips f root passed e (skipped ++ c :: rest)) :
    Skips f root passed c rest := by
  induction skipped generalizing e with
  | nil => exact h.2
  | cons b skipped ih => exact ih h.2

theorem skips_of_path (h : Path f e ahead root) : Skips f root passed e ahead := by
  induction ahead generalizing e with
  | nil => exact ⟨[], [], rfl, h, nofun⟩
  | cons b ahead ih => exact ⟨⟨[], b :: ahead, rfl, h.1, nofun⟩, ih h.2⟩

theorem Leads.congr (h : Leads f root passed e ahead) (he : g e = f e)
    (hpassed : ∀ b, passed b → passed' b) : Leads g root passed' e ahead := by
  obtain ⟨skipped, rest, hahead, hf, hover⟩ := h
  exact ⟨skipped, rest, hahead, he.trans hf, fun b hb => hpassed b (hover b hb)⟩

theorem Skips.congr (h : Skips f root passed e ahead) (hsame : ∀ b ∈ e :: ahead, g b = f b)
    (hpassed : ∀ b, passed b → passed' b) : Skips g root passed' e ahead := by
  induction ahead generalizing e with
  | nil => exact Leads.congr h (hsame e mem_cons_self) hpassed
  | cons b ahead ih =>
    exact ⟨h.1.congr (hsame e mem_cons_self) hpassed,
      ih h.2 fun c hc => hsame c (mem_cons_of_mem e hc)⟩

/-- A node ahead may be put in that may be passed. -/
theorem Leads.insert (skipped : List α) (h : Leads f root passed e (skipped ++ rest))
    (hx : passed x) :
    Leads f root passed e (skipped ++ x :: rest) := by
  obtain ⟨front, back, hsplit, hf, hfront⟩ := h
  rcases append_eq_append_iff.mp hsplit with ⟨mid, rfl, rfl⟩ | ⟨mid, rfl, rfl⟩
  · refine ⟨skipped ++ x :: mid, back, by simp, hf, fun b hb => ?_⟩
    rcases mem_append.mp hb with hb | hb
    · exact hfront b (mem_append_left _ hb)
    · rcases mem_cons.mp hb with rfl | hb
      · exact hx
      · exact hfront b (mem_append_right _ hb)
  · cases mid with
    | nil =>
      refine ⟨front ++ [x], rest, by simp, hf, fun b hb => ?_⟩
      rcases mem_append.mp hb with hb | hb
      · exact hfront b hb
      · exact mem_singleton.mp hb ▸ hx
    | cons c mid => exact ⟨front, c :: mid ++ x :: rest, by simp, hf, hfront⟩

theorem Skips.insert (h : Skips f root passed e (skipped ++ rest)) (hx : passed x)
    (hleads : f x = rest.head?.getD root) : Skips f root passed e (skipped ++ x :: rest) := by
  induction skipped generalizing e with
  | nil =>
    refine ⟨Leads.insert [] h.leads hx, ?_⟩
    cases rest with
    | nil => exact ⟨[], [], rfl, hleads, nofun⟩
    | cons c rest => exact ⟨⟨[], c :: rest, rfl, hleads, nofun⟩, h.2⟩
  | cons b skipped ih => exact ⟨Leads.insert (b :: skipped) h.1 hx, ih h.2⟩

/-- The first link is another one. -/
theorem Skips.relink (h : Skips f root passed e ahead) (hleads : Leads g root passed e ahead)
    (hsame : ∀ b ∈ ahead, g b = f b) : Skips g root passed e ahead := by
  cases ahead with
  | nil => exact hleads
  | cons b ahead => exact ⟨hleads, h.2.congr hsame fun _ hb => hb⟩

variable [DecidableEq α]

variable (h : Skips f root passed e ahead)
include h

/-- The node `n` behind `p` is taken out. -/
theorem Skips.unlink {p n : α} (hp : f p = n) (hroot : n ≠ root)
    (hn : passed n) : Skips (update f p (f n)) root passed e ahead := by
  have hleads : ∀ {e ahead}, Skips f root passed e ahead →
      Leads (update f p (f n)) root passed e ahead := by
    intro e ahead h
    by_cases heq : e = p
    · obtain ⟨skipped, rest, rfl, hf, hover⟩ := h.leads
      rw [heq, hp] at hf
      cases rest with
      | nil => exact absurd hf hroot
      | cons c rest =>
        obtain rfl : n = c := hf
        obtain ⟨skipped', rest', rfl, hf', hover'⟩ := h.drop.leads
        refine ⟨skipped ++ n :: skipped', rest', by simp, ?_, fun b hb => ?_⟩
        · rw [heq, update_self, hf']
        · rcases mem_append.mp hb with hb | hb
          · exact hover b hb
          · rcases mem_cons.mp hb with rfl | hb
            · exact hn
            · exact hover' b hb
    · exact h.leads.congr (update_of_ne heq _ _) fun _ hb => hb
  induction ahead generalizing e with
  | nil => exact hleads h
  | cons b ahead ih => exact ⟨hleads h, ih h.2⟩

theorem Skips.link_first (hnodup : (e :: ahead).Nodup)
    (hx : x ∉ e :: ahead) (hpassed : passed x) :
    ∃ skipped rest, ahead = skipped ++ rest ∧
      Skips (update (update f e x) x (f e)) root passed e (skipped ++ x :: rest) := by
  obtain ⟨skipped, rest, rfl, hf, hover⟩ := h.leads
  have hnext : Skips (update f x (f e)) root passed e (skipped ++ x :: rest) := by
    refine Skips.insert (h.congr (fun b hb => ?_) fun _ hb => hb) hpassed ?_
    · exact update_of_ne (fun hbx : b = x => hx (hbx ▸ hb)) _ _
    · rw [update_self, hf]
  have hex : e ≠ x := fun hex => hx (hex ▸ mem_cons_self)
  refine ⟨skipped, rest, rfl, hnext.relink ⟨skipped, x :: rest, rfl, ?_, hover⟩ fun b hb => ?_⟩
  · rw [update_of_ne hex, update_self]
    rfl
  · have hbe : b ≠ e := by
      rintro rfl
      rcases mem_cons.mp (perm_middle.mem_iff.mp hb) with hbx | hb
      · exact hex hbx
      · exact (nodup_cons.mp hnodup).1 hb
    rw [update_comm hex, update_of_ne hbe]

/-- The node `x` is put in behind `a`. -/
theorem Skips.link {a : α} (ha : a ∈ e :: ahead)
    (hnodup : (e :: ahead).Nodup) (hx : x ∉ e :: ahead) (hpassed : passed x) :
    ∃ skipped rest, ahead = skipped ++ rest ∧
      Skips (update (update f a x) x (f a)) root passed e (skipped ++ x :: rest) := by
  induction ahead generalizing e with
  | nil => exact mem_singleton.mp ha ▸ h.link_first hnodup hx hpassed
  | cons b ahead ih =>
    by_cases heq : a = e
    · exact heq ▸ h.link_first hnodup hx hpassed
    · have hne : e ≠ x := fun hex => hx (hex ▸ mem_cons_self)
      obtain ⟨skipped, rest, rfl, hskips⟩ := ih h.2 ((mem_cons.mp ha).resolve_left heq)
        (nodup_cons.mp hnodup).2 fun hin => hx (mem_cons_of_mem e hin)
      refine ⟨b :: skipped, rest, rfl, ?_, hskips⟩
      refine Leads.insert (b :: skipped) (h.1.congr ?_ fun _ hb => hb) hpassed
      rw [update_of_ne hne, update_of_ne (Ne.symm heq)]

end StaleLinks

end PyTorchCore.Lib
