import OpTree.Proofs.Threading
import OpTree.Proofs.Weaving

/-!
# The linearizer

A tree that is ready is linked by the linearizer, and nothing but the links of its own ops changes.
-/

namespace OpTree

set_option autoImplicit false

namespace Arena

open OpTree.Tree

variable {a b c : Arena}

theorem Rethreaded.sameLinks {s : List RecId} (h : Rethreaded a b s) {r : RecId} (hr : r ∉ s) :
    SameLinks a b r := by
  rw [SameLinks, h.outside r hr]
  exact ⟨rfl, rfl⟩

theorem Strung.follow {q : RecId} {ks : List Tree} (h : a.Strung start q ks) {p : Tree × RecId}
    (hp : p ∈ follow ks q) : (a.node p.1.root).next = some p.2 := by
  induction ks with
  | nil => cases hp
  | cons k ks ih =>
    cases ks with
    | nil =>
      obtain rfl := List.mem_singleton.mp hp
      exact h.1
    | cons j ks =>
      rcases List.mem_cons.mp hp with rfl | hp
      · exact h.1.1
      · exact ih h.2 hp

theorem Ready.entrance_eq {t : Tree} (h : a.Ready t) : a.entrance t = t.start := by
  induction h with
  | @linked t hb _ h =>
    have hnext := h.next_eq hb
    cases t
    rw [root_mk] at hnext
    rw [entrance_mk, hnext, Option.getD_some]
  | @op r o ks _ _ hn _ ih =>
    rw [entrance_mk, hn, start_mk, startAll]
    cases ks with
    | nil => rfl
    | cons k ks => exact ih k (List.mem_cons_self ..)
  | logop _ _ hn _ hf => simp [entrance_mk, hn, hf, start]
  | loop _ hn _ _ _ _ _ _ _ _ _ ih => simpa [entrance_mk, hn, start] using ih

theorem Ready.flow {t : Tree} {q : Option RecId} (h : a.Ready t) (hn : t.recs.Nodup) (hw : Woven a b t)
    (hkeep : ∀ r ∈ t.recs, r ∉ a.crown t → SameLinks a b r)
    (hother : ∀ r, (b.node r).other = (a.node r).other) (hq : (b.node t.root).next = q) : b.Flow t q := by
  induction h generalizing q with
  | @linked t hb _ h => exact Flow.redirect h hb (crown_linked hn (by simp [h.next_eq hb]) hkeep) hq
  | @op r o ks hb hl hnone hks ih =>
    cases hw with
    | linked h => exact absurd hnone h
    | op _ hwk hs =>
      have hs' : b.Strung start r ks := hs.congr (fun k hk => (hks k hk).entrance_eq.symm) fun _ _ => rfl
      refine .op hb hl (fun p hp => ?_) hq
      have hpk := mem_of_mem_follow hp
      exact ih p.1 hpk (nodup_of_mem (nodup_kids hn) hpk) (hwk p.1 hpk) (crown_kid hn hnone hkeep hpk)
        (hs'.follow hp)
  | @logop n l o lo x y ho hl hnone hb hf hx hy hly =>
    cases hw with
    | linked h => exact absurd hnone h
    | op _ _ hs =>
      have hk : Tree.mk l lo [x, y] ∈ [Tree.mk l lo [x, y]] := List.mem_singleton_self _
      have hbelow := crown_linked (nodup_of_mem (nodup_kids hn) hk) (by simp [hf]) (crown_kid hn hnone hkeep hk)
      refine .op ho hl (fun p hp => ?_) hq
      obtain rfl := List.mem_singleton.mp hp
      refine .logop hb (hx.congr fun q hq => hbelow q ?_) ((hother l).trans hly)
        (hy.congr fun q hq => hbelow q ?_) hs.1
      · simp [hq]
      · simp [hq]
  | @loop r w l s o wo lo so ent iter body hl hnone hent hw' hf hb hiter hne ho hbody hln ih =>
    cases hw with
    | linked h => exact absurd hnone h
    | op _ hwk hs =>
      have hk : Tree.mk w wo [.mk l lo [iter, .mk s so body]] ∈
          [ent, Tree.mk w wo [.mk l lo [iter, .mk s so body]]] := by simp
      have he : ent ∈ [ent, Tree.mk w wo [.mk l lo [iter, .mk s so body]]] := by simp
      have hbelow := crown_linked (nodup_of_mem (nodup_kids hn) hk) (by simp [hf]) (crown_kid hn hnone hkeep hk)
      have hentn : (b.node ent.root).next = some iter.start := by
        rw [hs.1.1, entrance_mk, hf, Option.getD_some]
      have hl' := hbelow l (by simp)
      refine .loop hl hw' hb ?_ (hiter.congr fun q hq => hbelow q ?_) hne ((hother l).trans ho)
        (fun p hp => (hbody p hp).congr fun q hq => hbelow q ?_) (hl'.1.trans hln) hs.2.1 hq
      · exact ih (nodup_of_mem (nodup_kids hn) he) (hwk ent he) (crown_kid hn hnone hkeep he) hentn
      · simp [hq]
      · have : q ∈ body.flatMap Tree.recs := List.mem_flatMap.mpr ⟨p.1, mem_of_mem_follow hp, hq⟩
        simp [this]

end Arena

namespace TreeM

open Arena OpTree.Tree

variable {a : Arena}

theorem linearize_ok {t : Tree} (hr : a.Ready t) (hh : a.Holds t) (hn : t.recs.Nodup) :
    ∃ b, linearize t.root a = .ok (some t.start) b ∧ Rethreaded a b t.recs ∧ b.Linked t := by
  obtain ⟨b, hok, hab⟩ := linearize_threads hh hn
  rw [hr.entrance_eq] at hok
  refine ⟨b, hok, hab.rethreaded.mono (crown_subset a t), ?_⟩
  refine hr.flow hn hab.woven (fun r _ hm => hab.rethreaded.sameLinks hm) hab.rethreaded.other ?_
  rw [hab.next, hr.entrance_eq]

end TreeM

end OpTree
