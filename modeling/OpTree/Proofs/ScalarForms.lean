import OpTree.Proofs.ScalarExprs

/-!
# Listings about scalars

Which forms speak of scalars only, and that the trees built of them are trees about scalars.
-/

namespace OpTree

set_option autoImplicit false

namespace Tree

variable {t x y : Tree} {ks body : List Tree}

/-- A statement as it is built: an expression or a loop. -/
inductive Phrase : Tree → Prop where
  | value {t : Tree} (h : Fresh t) : Phrase t
  | loop {x y t : Tree} {body : List Tree} (h : Ranged x y body t) (hx : Scalar .operand x) (hy : Scalar .operand y)
      (hbody : Block false body) : Phrase t

theorem void_loop (hc : t.op.code = .leaveloop) (hn : t.recs.Nodup) : t.void = mk t.root (t.op.withWant .void) t.kids := by
  have hv : t.voided = [t.root] := by
    obtain ⟨r, o, ks⟩ := t
    rw [voided]
    rw [op_mk] at hc
    simp only [hc, root_mk]
  rw [← modify_root (f := fun o => o.withWant .void) hn, void, modify, hv]
  exact mapOps_congr fun u _ => by simp only [markVoid, List.mem_singleton]

theorem Ranged.void (h : Ranged x y body t) (hn : t.recs.Nodup) : Ranged x y body t.void := by
  rw [void_loop h.code hn]
  cases h with
  | mk hc he hw hl hi hs => exact .mk hc he hw hl hi hs

end Tree

namespace Build

open OpTree.Tree

variable {stmts : List Stmt} {es ks : List Tree}

theorem Items.body {u : RecId} {uo : Node} (h : Items false stmts es ks) (hes : ∀ e ∈ es, Phrase e ∧ e.recs.Nodup)
    (hu : uo.code = .unstack) : Block false (ks ++ [.mk u uo []]) := by
  induction h with
  | nil => exact .close hu
  | empty n i file he _ ih => exact .empty rfl (ih hes)
  | @expr s rest e es ks n i file he _ ih =>
    obtain ⟨⟨hphrase, hn⟩, hrest⟩ := List.forall_mem_cons.mp hes
    have hwant : e.void.op.want ≠ .unknown := by
      rw [want_void]
      decide
    simp only [Bool.not_false, Bool.true_or, if_true, List.cons_append]
    cases hphrase with
    | value h => exact .expr rfl (h.void hn) hwant (ih hrest)
    | loop h hx hy hbody => exact .loop rfl (h.void hn) hx hy hbody hwant (ih hrest)

theorem Items.tail (h : Items true stmts es ks) (hne : stmts ≠ []) (hes : ∀ e ∈ es, Phrase e ∧ e.recs.Nodup) :
    Block true ks := by
  induction h with
  | nil => exact absurd rfl hne
  | @empty s rest es ks n i file he hrest ih =>
    cases hrest with
    | nil => exact .last rfl
    | empty | expr => exact .empty rfl (ih (List.cons_ne_nil _ _) hes)
  | @expr s rest e es ks n i file he hrest ih =>
    obtain ⟨⟨hphrase, hn⟩, hes⟩ := List.forall_mem_cons.mp hes
    have hwant : e.void.op.want ≠ .unknown := by
      rw [want_void]
      decide
    cases rest with
    | nil =>
      cases hrest with
      | nil =>
        cases hphrase with
        | value h => exact .value rfl h.item
        | loop h hx hy hbody => exact .final rfl h hx hy hbody
    | cons s' rest =>
      have hks := ih (List.cons_ne_nil _ _) hes
      cases hphrase with
      | value h => exact .expr rfl (h.void hn) hwant hks
      | loop h hx hy hbody => exact .loop rfl (h.void hn) hx hy hbody hwant hks

end Build

namespace Assemble

open Build TreeM OpTree.Tree Form

variable {src : Source} {a b : Arena} {ts : List Tree}

theorem stmts_grow {sub : Form → TreeM RecId} {fs : List Form} {stmts : List Stmt}
    (hsub : ∀ f ∈ fs, ∀ label e, splitStmt src f = .ok (label, some e) → Grows Phrase (sub e)) (h : a.Site ts)
    (hok : fs.mapM (stmt src sub) a = .ok stmts b) :
    ∃ es, es.map Tree.root = stmts.filterMap Stmt.expr? ∧ (∀ e ∈ es, Phrase e) ∧ b.Site (es ++ ts) := by
  induction fs generalizing a ts stmts with
  | nil =>
    obtain ⟨rfl, rfl⟩ := pure_eq_ok.mp (by simpa using hok)
    exact ⟨[], rfl, List.forall_mem_nil _, h⟩
  | cons f fs ih =>
    rw [List.mapM_cons] at hok
    obtain ⟨s, c, hs, hok⟩ := bind_eq_ok.mp hok
    obtain ⟨ss, d, hss, hok⟩ := bind_eq_ok.mp hok
    obtain ⟨rfl, rfl⟩ := pure_eq_ok.mp hok
    obtain ⟨hf, hfs⟩ := List.forall_mem_cons.mp hsub
    unfold stmt at hs
    rcases hsplit : splitStmt src f with why | ⟨label, _ | e⟩
    · rw [hsplit] at hs
      exact absurd hs throw_ne_ok
    · rw [hsplit] at hs
      obtain ⟨rfl, rfl⟩ := pure_eq_ok.mp hs
      obtain ⟨es, hes, hall, hd⟩ := ih hfs h hss
      exact ⟨es, hes, hall, hd⟩
    · rw [hsplit] at hs
      obtain ⟨r, c', hr, hs⟩ := bind_eq_ok.mp hs
      obtain ⟨rfl, rfl⟩ := pure_eq_ok.mp hs
      obtain ⟨t, rfl, ht, hc⟩ := hf label e hsplit h hr
      obtain ⟨es, hes, hall, hd⟩ := ih hfs hc hss
      refine ⟨t :: es, ?_, List.forall_mem_cons.mpr ⟨ht, hall⟩, hd.perm List.perm_middle⟩
      rw [List.map_cons, hes]
      rfl

theorem foreach_grows {sub : Form → TreeM RecId} {l v lo hi : Form} {body : List Form} (hlo : Grows (Grown lo) (sub lo))
    (hhi : Grows (Grown hi) (sub hi))
    (hbody : ∀ f ∈ body, ∀ label e, splitStmt src f = .ok (label, some e) → Grows Phrase (sub e)) :
    Grows Phrase (loop src sub l (v :: lo :: hi :: body)) := by
  intro a b ts r h hok
  cases v with
  | var p s =>
    rw [loop] at hok
    split at hok
    · exact absurd hok throw_ne_ok
    obtain ⟨x, c, hx, hok⟩ := bind_eq_ok.mp hok
    obtain ⟨y, d, hy, hok⟩ := bind_eq_ok.mp hok
    obtain ⟨targ, e, htarg, hok⟩ := bind_eq_ok.mp hok
    obtain ⟨stmts, f, hstmts, hok⟩ := bind_eq_ok.mp hok
    obtain ⟨x, rfl, hfx, hc⟩ := hlo h hx
    obtain ⟨y, rfl, hfy, hd⟩ := hhi hc hy
    obtain ⟨es, hes, hphrases, hf⟩ := stmts_grow hbody (addPad_ok hd htarg) hstmts
    have hperm : (es ++ y :: x :: ts).Perm (x :: y :: (es ++ ts)) :=
      List.perm_middle.trans ((List.perm_middle.cons y).trans (List.Perm.swap x y _))
    have hsite := hf.perm hperm
    obtain ⟨ks, ent, s, u, t, l, w, i₁, i₂, i₃, i₄, i₅, i₆, i₇, hks, hb⟩ := foreach_ok hsite hes hok
    refine ⟨_, rfl, ?_, hb⟩
    obtain ⟨so, hso, hseq⟩ := bodyTree_eq s u i₆ i₇ ks
    have hn : ∀ e ∈ es, Phrase e ∧ e.recs.Nodup := fun e he =>
      ⟨hphrases e he, nodup_of_mem hsite.nodup (by simp [he])⟩
    rw [hseq]
    refine .loop (.mk rfl (code_enterTree ent targ i₂ x y) rfl rfl ?_ hso) hfx.1.wantScalar hfy.1.wantScalar (hks.body hn rfl)
    exact code_wantScalar _
  | _ => exact absurd hok throw_ne_ok

theorem splitStmt_of_stmt {q q' p s : Nat} {items : List Form} {label : Bytes} {e : Form}
    (hstmt : (slice src.text p s == utf8 "stmt") = true)
    (h : splitStmt src (.list q q' (.atom p s :: items)) = .ok (label, some e)) : items = [e] ∨ ∃ i, items = [i, e] := by
  unfold splitStmt at h
  dsimp only at h
  rw [if_pos hstmt] at h
  split at h
  · cases h
  · rename_i heq
    cases h
    split at heq
    · split at heq
      · exact Or.inr ⟨_, congrArg _ heq⟩
      · exact Or.inl heq
    · exact Or.inl heq
  · cases h

theorem clause_split {f e : Form} {label : Bytes} (hf : f.clause src true = true)
    (h : splitStmt src f = .ok (label, some e)) : e.clause src false = true := by
  rw [Form.clause.eq_def] at hf
  split at hf
  · rename_i q q' p s items
    rw [Bool.true_and] at hf
    by_cases hstmt : (slice src.text p s == utf8 "stmt") = true
    · rw [if_pos hstmt] at hf
      rcases splitStmt_of_stmt hstmt h with rfl | ⟨i, rfl⟩
      · exact hf
      · exact hf
    · rw [if_neg hstmt] at hf
      unfold splitStmt at h
      dsimp only at h
      rw [if_neg hstmt] at h
      cases h
      rw [Form.clause.eq_def]
      exact hf
  · rename_i hno
    unfold splitStmt at h
    split at h
    · exact absurd rfl (hno _ _ _ _ _)
    · cases h
      rw [Form.clause.eq_def]
      split
      · exact absurd rfl (hno _ _ _ _ _)
      · exact hf

theorem phrase_grows (fuel : Nat) {f : Form} (hf : f.clause src false = true) : Grows Phrase (expr src fuel f) := by
  induction fuel generalizing f with
  | zero => exact grows_throw
  | succ fuel ih =>
    have hvalue : f.scalar src = true → Grows Phrase (expr src (fuel + 1) f) := fun hs =>
      (expr_grows (fuel + 1) hs).mono fun t ht => .value ht.1
    unfold Form.clause at hf
    split at hf
    · rename_i q e p s items
      rw [Bool.false_and, if_neg Bool.false_ne_true] at hf
      split at hf
      · rename_i hhead
        refine list_grows fun name args extra mods hitems hatoms => ?_
        rw [hhead]
        split at hf
        · rename_i v lo hi body
          simp only [Bool.and_eq_true] at hf
          obtain ⟨⟨hlo, hhi⟩, hbody⟩ := hf
          rcases args with _ | ⟨v', _ | ⟨lo', _ | ⟨hi', body'⟩⟩⟩
          · exact grows_throw
          · cases v' <;> exact grows_throw
          · cases v' <;> exact grows_throw
          · simp only [List.cons_append, List.cons.injEq] at hitems
            obtain ⟨rfl, rfl, rfl, rfl⟩ := hitems
            refine foreach_grows (expr_grows fuel hlo) (expr_grows fuel hhi) fun f hm label e hsplit => ?_
            exact ih (clause_split (Form.clauseAll_iff.mp hbody f (by simp [hm])) hsplit)
        · cases hf
      · exact hvalue hf
    · exact hvalue hf

end Assemble

namespace TreeM

open Build OpTree.Tree Assemble

variable {src : Source} {a b : Arena}

theorem assemble_whole {s : Sub} {root : RecId} (h : a.Site []) (hs : Form.clauseAll src s.body = true)
    (hok : assemble src s a = .ok root b) : ∃ t, t.root = root ∧ Whole t ∧ b.Site [t] := by
  obtain ⟨stmts, c, hstmts, hok⟩ := bind_eq_ok.mp hok
  obtain ⟨es, hes, hphrases, hc⟩ := stmts_grow (fun f hf label e hsplit =>
    phrase_grows _ (clause_split (Form.clauseAll_iff.mp hs f hf) hsplit)) h hstmts
  have hsub : ∀ {stmts : List Stmt} {es : List Tree} {c : Arena}, stmts ≠ [] → es.map Tree.root = stmts.filterMap Stmt.expr? →
      (∀ e ∈ es, Phrase e) → c.Site (es ++ []) → Build.sub stmts c = .ok root b →
      ∃ t, t.root = root ∧ Whole t ∧ b.Site [t] := by
    intro stmts es c hne hes hphrases hc hok
    obtain ⟨ks, q, i, j, hks, hb⟩ := sub_ok hc hes hok
    obtain ⟨so, hso, hgrown⟩ := grown_eq q { code := .lineseq, id := j } [] ks
    refine ⟨_, rfl, ?_, hb⟩
    rw [hgrown]
    refine .mk rfl hso.code (hks.tail hne fun e he => ⟨hphrases e he, ?_⟩)
    exact nodup_of_mem hc.nodup (by simp [he])
  split at hok
  · rename_i hempty
    obtain rfl := List.isEmpty_iff.mp hempty
    obtain rfl : es = [] := by simpa using hes
    obtain ⟨r, d, hr, hok⟩ := bind_eq_ok.mp hok
    have hblank : Want.ofBits 0 = .unknown := by decide
    have hstub : ∀ e ∈ [Tree.mk r { code := .stub, id := c.seq + 1 } []], Phrase e :=
      List.forall_mem_singleton.mpr (.value (.undef rfl hblank))
    exact hsub (List.cons_ne_nil _ _) rfl hstub (stub_ok hc hr) hok
  · rename_i hne
    exact hsub (fun he => hne (List.isEmpty_iff.mpr he)) hes hphrases hc hok

end TreeM

end OpTree
