import OpTree.Proofs.Loops
import OpTree.Proofs.Tidy
import OpTree.Build.Assemble

/-!
# Assembled units

The tree of a listing is built by nothing but calls of constructors, so what holds of made trees
holds of every unit.
-/

namespace OpTree

set_option autoImplicit false

namespace Build

open Arena OpTree.Tree TreeM

theorem Lays.call {ks : List RecId} {x : TreeM RecId} (h : Lays ks x) : Call ks x := by
  cases h with
  | const v => exact .const v
  | my name shape => exact .my name shape
  | gv name => exact .gv name
  | stub => exact .stub
  | rv2 t k => exact .rv2 t k
  | scalar k => exact .scalar k
  | unop t k p => exact .unop t (some k) p
  | binop t x y => exact .binop t x y
  | listop t => exact .listop t _
  | aelem c k => exact .aelem c k
  | helem c k => exact .helem c k
  | existsElem e => exact .existsElem e
  | deleteElem e => exact .deleteElem e
  | arylen av => exact .arylen av
  | sassign src dst => exact .sassign src dst
  | logop t x y => exact .logop t x y
  | cond x y z => exact .cond x y z

/-- The arenas that the calls for a listing lead to, with the roots of the trees that have no parent yet and the
slots that are reserved for loops to come. The group of the unit is held by nobody else. -/
inductive Laid (T : Tuning) : Arena → List RecId → List Int → Prop where
  | start {a : Arena} {g : Group} (h : a.recs = #[]) (hg : a.group? = some g) (hfree : g.free = none)
      (hrefs : g.refs = 1) (hrel : g.released = false) (htune : a.tune = T) (hpad : 0 < a.pad.size) : Laid T a [] []
  | perm {a : Arena} {rs qs : List RecId} {ss : List Int} (h : Laid T a rs ss) (hp : rs.Perm qs) : Laid T a qs ss
  | reserve {a b : Arena} {rs : List RecId} {ss : List Int} {name : Bytes} {shape : Int} {i : Nat}
      (h : Laid T a rs ss) (hok : TreeM.addPad name shape a = .ok i b) : Laid T b rs ((i : Int) :: ss)
  | lay {a b : Arena} {ks rs : List RecId} {ss : List Int} {x : TreeM RecId} {r : RecId} (h : Laid T a (ks ++ rs) ss)
      (hx : Lays ks x) (hok : x a = .ok r b) : Laid T b (r :: rs) ss
  | var {a b : Arena} {rs : List RecId} {ss : List Int} {t : Opcode} {targ : Int} {p : Priv} {r : RecId}
      (h : Laid T a rs ss) (htarg : a.pad.Has targ) (hok : pad t targ p a = .ok r b) : Laid T b (r :: rs) ss
  | loop {a b : Arena} {rs : List RecId} {ss : List Int} {targ : Int} {lo hi r : RecId} {body : List Stmt}
      (h : Laid T a (lo :: hi :: body.filterMap Stmt.expr? ++ rs) (targ :: ss))
      (hok : foreach targ lo hi body a = .ok r b) : Laid T b (r :: rs) ss

/-- What is known of an arena while a listing is assembled: its trees are made by the rules, the variables in them are
in the pad, and no two loops share the slot of their variables, built or to come. -/
structure Plot (T : Tuning) (a : Arena) (ts : List Tree) (ss : List Int) : Prop where
  site : a.Site ts
  tidy : a.Tidy
  made : ∀ t ∈ ts, Made t
  shaped : ∀ t ∈ ts, t.Shaped
  balanced : ∀ t ∈ ts, t.Balanced
  listed : ∀ t ∈ ts, t.Listed a.pad
  nodup : (ts.flatMap Tree.slots ++ ss).Nodup
  lt : ∀ s ∈ ts.flatMap Tree.slots ++ ss, s < a.pad.size
  room : 0 < a.pad.size
  tune : a.tune = T

variable {T : Tuning}

theorem Plot.perm {a : Arena} {ts us : List Tree} {ss : List Int} (h : Plot T a ts ss) (hp : ts.Perm us) :
    Plot T a us ss := by
  have hslots := (hp.flatMap_right Tree.slots).append_right ss
  exact ⟨h.site.perm hp, h.tidy, fun t ht => h.made t (hp.mem_iff.mpr ht), fun t ht => h.shaped t (hp.mem_iff.mpr ht),
    fun t ht => h.balanced t (hp.mem_iff.mpr ht), fun t ht => h.listed t (hp.mem_iff.mpr ht),
    hslots.nodup_iff.mp h.nodup, fun s hs => h.lt s (hslots.mem_iff.mpr hs), h.room, h.tune⟩

theorem Plot.reserve {a b : Arena} {ts : List Tree} {ss : List Int} {name : Bytes} {shape : Int} {i : Nat}
    (h : Plot T a ts ss) (hok : TreeM.addPad name shape a = .ok i b) : Plot T b ts ((i : Int) :: ss) := by
  have hsite := addPad_ok h.site hok
  have htidy := (tidies_addPad _ _ h.tidy hok).tidy
  cases hok
  have hgrown : (a.pad.add name shape).2.size = a.pad.size + 1 := by simp [Pad.add, Pad.size]
  refine ⟨hsite, htidy, h.made, h.shaped, h.balanced, fun t ht => (h.listed t ht).mono ?_, ?_, fun s hs => ?_, ?_,
    h.tune⟩
  · change a.pad.size ≤ (a.pad.add name shape).2.size
    omega
  · rw [List.perm_middle.nodup_iff, List.nodup_cons]
    exact ⟨fun hs => Int.lt_irrefl _ (h.lt _ hs), h.nodup⟩
  · have hs' : s = a.pad.size ∨ s < a.pad.size := by
      rcases List.mem_cons.mp (List.perm_middle.mem_iff.mp hs) with rfl | hs
      · exact Or.inl rfl
      · exact Or.inr (h.lt s hs)
    change s < ((a.pad.add name shape).2.size : Int)
    omega
  · change 0 < (a.pad.add name shape).2.size
    omega

/-- One of the trees is made of others, and takes over some of their slots and of those reserved. -/
theorem Plot.make {a b : Arena} {ks ts : List Tree} {ss ss' : List Int} {t : Tree} (h : Plot T a (ks ++ ts) ss)
    (hb : a.Tidied b) (hsite : b.Site (t :: ts)) (hmade : Makes ks t) (hshaped : t.Shaped) (hbal : t.Balanced)
    (hop : t.op.Slotted b.pad) (hs : (t.slots ++ ss').Subperm (ks.flatMap Tree.slots ++ ss)) : Plot T b (t :: ts) ss' := by
  have hsub : ((t :: ts).flatMap Tree.slots ++ ss').Subperm ((ks ++ ts).flatMap Tree.slots ++ ss) := by
    rw [List.flatMap_cons, List.flatMap_append]
    have hleft := List.perm_append_comm_assoc t.slots (ts.flatMap Tree.slots) ss'
    have hright := List.perm_append_comm_assoc (ks.flatMap Tree.slots) (ts.flatMap Tree.slots) ss
    rw [List.append_assoc, List.append_assoc]
    exact hleft.subperm.trans ((List.subperm_append_left _).mpr hs |>.trans hright.symm.subperm)
  have hpad : (a.pad.size : Int) ≤ b.pad.size := by exact_mod_cast hb.pad
  have hold : ∀ u ∈ ks ++ ts, u.Listed b.pad := fun u hu => (h.listed u hu).mono hb.pad
  refine ⟨hsite, hb.tidy, fun u hu => ?_, fun u hu => ?_, fun u hu => ?_, fun u hu => ?_, ?_, fun s hs => ?_,
    Nat.lt_of_lt_of_le h.room hb.pad, hb.tune.trans h.tune⟩
  · rcases List.mem_cons.mp hu with rfl | hu
    · exact .call (fun k hk => h.made k (by simp [hk])) hmade
    · exact h.made u (by simp [hu])
  · rcases List.mem_cons.mp hu with rfl | hu
    · exact hshaped
    · exact h.shaped u (by simp [hu])
  · rcases List.mem_cons.mp hu with rfl | hu
    · exact hbal
    · exact h.balanced u (by simp [hu])
  · rcases List.mem_cons.mp hu with rfl | hu
    · exact hmade.listed (fun k hk => hold k (List.mem_append_left ts hk)) hop
    · exact hold u (List.mem_append_right ks hu)
  · obtain ⟨l, hl, hsl⟩ := hsub
    exact hl.nodup_iff.mp (h.nodup.sublist hsl)
  · exact Int.lt_of_lt_of_le (h.lt s (hsub.subset hs)) hpad

theorem Plot.lay {a b : Arena} {ks ts : List Tree} {ss : List Int} {x : TreeM RecId} {r : RecId}
    (h : Plot T a (ks ++ ts) ss) (hx : Lays (ks.map Tree.root) x) (hok : x a = .ok r b) :
    ∃ t, t.root = r ∧ Plot T b (t :: ts) ss := by
  have hks : ∀ k ∈ ks, k ∈ ks ++ ts := fun k hk => List.mem_append_left ts hk
  obtain ⟨t, hr, ht, hloop, hsub, hop, hsite⟩ :=
    hx.makes h.site (fun k hk => (h.made k (hks k hk)).code_ne_enteriter) hok
  have hkept := ht.retains (fun k hk => h.balanced k (hks k hk)) hloop
  refine ⟨t, hr, h.make (hx.call.tidies h.tidy hok) hsite ht (ht.shaped (fun k hk => h.shaped k (hks k hk)) hsub)
    hkept.balanced (hop h.room) ?_⟩
  exact (hkept.slots.append_right ss).subperm

theorem Plot.var {a b : Arena} {ts : List Tree} {ss : List Int} {t : Opcode} {targ : Int} {p : Priv} {r : RecId}
    (h : Plot T a ts ss) (htarg : a.pad.Has targ) (hok : pad t targ p a = .ok r b) :
    ∃ u, u.root = r ∧ Plot T b (u :: ts) ss := by
  obtain ⟨ht, hpad, hsite⟩ := pad_ok h.site hok
  have hmakes : Makes [] (.mk r { code := t, targ := targ, priv := p, id := a.seq + 1 } []) := .pad _ _ _ _ ht
  have hcode : t ≠ .leaveloop ∧ t ≠ .leavesub := by rcases ht with rfl | rfl | rfl <;> simp
  have hkept := hmakes.retains nofun hcode.1
  exact ⟨_, rfl, (show Plot T a ([] ++ ts) ss from h).make (Call.tidies (.pad t targ p) h.tidy hok) hsite hmakes
    (hmakes.shaped nofun fun _ => hcode.2) hkept.balanced (fun _ => hpad ▸ htarg)
    (hkept.slots.append_right ss).subperm⟩

theorem Plot.loop {a b : Arena} {ts es : List Tree} {ss : List Int} {targ : Int} {lo hi : Tree} {r : RecId}
    {body : List Stmt} (h : Plot T a (lo :: hi :: es ++ ts) (targ :: ss))
    (hes : es.map Tree.root = body.filterMap Stmt.expr?) (hok : foreach targ lo.root hi.root body a = .ok r b) :
    ∃ t, t.root = r ∧ Plot T b (t :: ts) ss := by
  obtain ⟨ks, ent, s, u, t, l, w, i₁, i₂, i₃, i₄, i₅, i₆, i₇, hit, hsite⟩ := foreach_ok h.site hes hok
  have hmakes : Makes (lo :: hi :: es) _ := .foreach r ent s u t l w targ lo hi i₁ i₂ i₃ i₄ i₅ i₆ i₇ hit
  obtain ⟨hbal, hslots⟩ := @loops_foreach r ent s u t l w targ _ _ _ _ _ i₁ i₂ i₃ i₄ i₅ i₆ i₇ hit
    (h.balanced lo (by simp)) (h.balanced hi (by simp)) fun e he => h.balanced e (by simp [he])
  refine ⟨_, rfl, h.make (tidies_foreach _ _ _ _ h.tidy hok) hsite hmakes ?_ hbal (Node.slotted_of_code ?_) ?_⟩
  · exact hmakes.shaped (fun k hk => h.shaped k (List.mem_append_left ts hk)) nofun
  · simp [loopTree]
  · rw [hslots]
    exact List.perm_middle.symm.subperm

theorem Laid.plot {a : Arena} {rs : List RecId} {ss : List Int} (h : Laid T a rs ss) :
    ∃ ts, ts.map Tree.root = rs ∧ Plot T a ts ss := by
  induction h with
  | start h hg hfree hrefs hrel htune hpad =>
    refine ⟨[], rfl, ⟨⟨⟨by simp, by simp, [], ?_⟩, by simp⟩, by simp⟩, ?_, nofun, nofun, nofun, nofun, by simp, nofun,
      hpad, htune⟩
    · refine ⟨fun g hg' => ?_, List.nodup_nil, by simp, by simp⟩
      obtain rfl := Option.some.inj (hg.symm.trans hg')
      exact hfree
    · refine ⟨fun r => ?_, ⟨fun r _ hlt => ?_, fun r _ _ _ hlt => ?_⟩, _, hg, hrefs, hrel⟩
      · rw [Arena.node_of_le (by simp [h])]
        exact Node.tidy_blank rfl rfl
      · simp [h] at hlt
      · simp [h] at hlt
  | @perm a rs qs ss h hp ih =>
    obtain ⟨ts, rfl, hts⟩ := ih
    have hcomp := congrFun (congrFun (List.eq_map_comp_perm Tree.root) qs) ts
    obtain ⟨us, rfl, hus⟩ := hcomp.mpr hp.symm
    exact ⟨us, rfl, hts.perm hus.symm⟩
  | reserve h hok ih =>
    obtain ⟨ts, rfl, hts⟩ := ih
    exact ⟨ts, rfl, hts.reserve hok⟩
  | lay h hx hok ih =>
    obtain ⟨us, hus, hp⟩ := ih
    obtain ⟨ks, ts, rfl, rfl, rfl⟩ := List.map_eq_append_iff.mp hus
    obtain ⟨t, rfl, ht⟩ := hp.lay hx hok
    exact ⟨t :: ts, rfl, ht⟩
  | var h htarg hok ih =>
    obtain ⟨ts, rfl, hts⟩ := ih
    obtain ⟨u, rfl, hu⟩ := hts.var htarg hok
    exact ⟨u :: ts, rfl, hu⟩
  | loop h hok ih =>
    obtain ⟨us, hus, hp⟩ := ih
    obtain ⟨ks, ts, rfl, hks, rfl⟩ := List.map_eq_append_iff.mp hus
    obtain ⟨lo, ks, rfl, rfl, hrest⟩ := List.map_eq_cons_iff.mp hks
    obtain ⟨hi, es, rfl, rfl, hes⟩ := List.map_eq_cons_iff.mp hrest
    obtain ⟨t, rfl, ht⟩ := hp.loop hes hok
    exact ⟨t :: ts, rfl, ht⟩

end Build

namespace Assemble

open Build TreeM

variable {T : Tuning} {a b : Arena} {rs : List RecId} {ss : List Int} {src : Source}

def Builds (x : TreeM RecId) : Prop :=
  ∀ {T : Tuning} {a b : Arena} {rs : List RecId} {ss : List Int} {r : RecId}, Laid T a rs ss → x a = .ok r b → Laid T b (r :: rs) ss

theorem builds_of_lays {x : TreeM RecId} (h : Lays [] x) : Builds x :=
  fun ha hok => ha.lay h hok

theorem builds_throw {e : Failure} : Builds (throw e) := fun _ hok => absurd hok throw_ne_ok

theorem builds_complain {f : Form} {msg : Bytes} : Builds (complain src f msg) := builds_throw

theorem mapM_laid {sub : Form → TreeM RecId} (hsub : ∀ f, Builds (sub f)) {args : List Form}
    {ks : List RecId} (h : Laid T a rs ss) (hok : args.mapM sub a = .ok ks b) : Laid T b (ks ++ rs) ss := by
  induction args generalizing a rs ks with
  | nil =>
    obtain ⟨rfl, rfl⟩ := pure_eq_ok.mp (by simpa using hok)
    exact h
  | cons f args ih =>
    rw [List.mapM_cons] at hok
    obtain ⟨k, c, hk, hok⟩ := bind_eq_ok.mp hok
    obtain ⟨js, d, hjs, hok⟩ := bind_eq_ok.mp hok
    obtain ⟨rfl, rfl⟩ := pure_eq_ok.mp hok
    exact (ih (hsub f h hk) hjs).perm List.perm_middle

theorem readVar_builds (name : Bytes) : Builds (readVar name) := by
  intro T a b rs ss r h hok
  unfold readVar at hok
  rw [bind_of_ok (get_apply a)] at hok
  split at hok
  · rename_i htarg
    exact h.var (Pad.has_find fun hz => htarg (by rw [hz])) hok
  · obtain ⟨g, c, hg, hok⟩ := bind_eq_ok.mp hok
    exact (show Laid T _ ([g] ++ rs) ss from h.lay (.gv _) hg).lay (.rv2 ..) hok

theorem container_laid {c r : RecId} {rv : Opcode} (h : Laid T a (c :: rs) ss)
    (hok : container c rv a = .ok r b) : Laid T b (r :: rs) ss := by
  unfold container at hok
  rw [bind_of_ok (node_apply _ _)] at hok
  generalize (a.node c).code = t at hok
  split at hok
  all_goals first
    | obtain ⟨rfl, rfl⟩ := pure_eq_ok.mp hok
      exact h
    | exact (show Laid T a ([c] ++ rs) ss from h).lay (.rv2 ..) hok

theorem operator_laid {l : Form} {head : Head} {mods : Modifiers} {ks : List RecId} {r : RecId}
    (h : Laid T a (ks ++ rs) ss) (hhead : ∀ t, head = .binop t → t ≠ .leaveloop)
    (hok : operator src l head mods ks a = .ok r b) : Laid T b (r :: rs) ss := by
  unfold operator at hok
  split at hok
  · exact h.lay (.unop ..) hok
  · exact h.lay (.binop _ _ _ (hhead _ rfl)) hok
  · exact h.lay (.listop ..) hok
  · exact h.lay (.logop ..) hok
  · rw [bind_of_ok (node_apply _ _)] at hok
    split at hok
    · obtain ⟨rfl, rfl⟩ := pure_eq_ok.mp hok
      exact h
    · exact absurd hok throw_ne_ok
  · exact h.lay (.scalar _) hok
  · exact h.lay (.rv2 ..) hok
  · obtain ⟨c, d, hc, hok⟩ := bind_eq_ok.mp hok
    exact (show Laid T d ([c, _] ++ rs) ss from container_laid h hc).lay (.aelem ..) hok
  · obtain ⟨c, d, hc, hok⟩ := bind_eq_ok.mp hok
    exact (show Laid T d ([c, _] ++ rs) ss from container_laid h hc).lay (.helem ..) hok
  · rename_i e
    rw [bind_of_ok (node_apply _ _)] at hok
    generalize (a.node e).code = t at hok
    split at hok
    · exact h.lay (.existsElem _) hok
    · exact h.lay (.existsElem _) hok
    · exact absurd hok throw_ne_ok
  · rename_i e
    rw [bind_of_ok (node_apply _ _)] at hok
    generalize (a.node e).code = t at hok
    split at hok
    · exact h.lay (.deleteElem _) hok
    · exact h.lay (.deleteElem _) hok
    · exact absurd hok throw_ne_ok
  · obtain ⟨c, d, hc, hok⟩ := bind_eq_ok.mp hok
    exact (show Laid T d ([c] ++ rs) ss from container_laid h hc).lay (.arylen _) hok
  · exact h.lay (.sassign ..) hok
  · -- a missing branch is a stub, which is made after the others
    rename_i x y
    obtain ⟨z, d, hz, hok⟩ := bind_eq_ok.mp hok
    have hd := (show Laid T a ([] ++ _) ss from h).lay .stub hz
    have hp : (z :: ([x, y] ++ rs)).Perm ([x, y] ++ z :: rs) := List.perm_middle.symm
    exact (show Laid T d ([x, y, z] ++ rs) ss from hd.perm hp).lay (.cond ..) hok
  · exact h.lay (.cond ..) hok
  · exact absurd hok throw_ne_ok

theorem shapeOf_eq {f : Form} {v : Int} (h : shapeOf src f a = .ok v b) : b = a := by
  unfold shapeOf at h
  split at h
  · generalize Literal.decimalInt? _ = v? at h
    split at h
    · split at h
      · exact (pure_eq_ok.mp h).2.symm
      · exact absurd h throw_ne_ok
    · exact absurd h throw_ne_ok
  · exact absurd h throw_ne_ok

theorem declare_builds {sub : Form → TreeM RecId} (hsub : ∀ f, Builds (sub f)) (l : Form)
    (args : List Form) : Builds (declare src sub l args) := by
  intro T a b rs ss r h hok
  unfold declare at hok
  split at hok
  · split at hok
    · exact h.lay (.my ..) hok
    · dsimp only at hok
      generalize List.head? _ = sigil? at hok
      split at hok
      · obtain ⟨s, c, hs, hmy⟩ := bind_eq_ok.mp hok
        rw [shapeOf_eq hs] at hmy
        exact h.lay (.my ..) hmy
      · obtain ⟨i, c, hi, hok⟩ := bind_eq_ok.mp hok
        obtain ⟨o, d, ho, hok⟩ := bind_eq_ok.mp hok
        have hd := (show Laid T c ([] ++ _) ss from hsub _ h hi).lay (.my ..) ho
        have hio : Laid T d ([i, o] ++ rs) ss := hd.perm (List.Perm.swap i o rs)
        exact hio.lay (.sassign ..) hok
      · exact absurd hok throw_ne_ok
    · exact absurd hok throw_ne_ok
  all_goals exact absurd hok throw_ne_ok

theorem stmt_laid {sub : Form → TreeM RecId} (hsub : ∀ f, Builds (sub f)) {f : Form} {s : Stmt}
    (h : Laid T a rs ss) (hok : stmt src sub f a = .ok s b) : Laid T b (s.expr?.toList ++ rs) ss := by
  unfold stmt at hok
  generalize splitStmt src f = parts at hok
  split at hok
  · exact absurd hok throw_ne_ok
  · obtain ⟨rfl, rfl⟩ := pure_eq_ok.mp hok
    exact h
  · obtain ⟨r, c, hr, hok⟩ := bind_eq_ok.mp hok
    obtain ⟨rfl, rfl⟩ := pure_eq_ok.mp hok
    exact hsub _ h hr

theorem stmts_laid {sub : Form → TreeM RecId} (hsub : ∀ f, Builds (sub f)) {body : List Form}
    {stmts : List Stmt} (h : Laid T a rs ss) (hok : body.mapM (stmt src sub) a = .ok stmts b) :
    Laid T b (stmts.filterMap Stmt.expr? ++ rs) ss := by
  induction body generalizing a rs stmts with
  | nil =>
    obtain ⟨rfl, rfl⟩ := pure_eq_ok.mp (by simpa using hok)
    exact h
  | cons f body ih =>
    rw [List.mapM_cons] at hok
    obtain ⟨s, c, hs, hok⟩ := bind_eq_ok.mp hok
    obtain ⟨ss, d, hss, hok⟩ := bind_eq_ok.mp hok
    obtain ⟨rfl, rfl⟩ := pure_eq_ok.mp hok
    have hd := ih (stmt_laid hsub h hs) hss
    cases he : s.expr? with
    | none => simpa [he] using hd
    | some e =>
      rw [he] at hd
      rw [List.filterMap_cons_some he]
      exact hd.perm List.perm_middle

theorem loop_builds {sub : Form → TreeM RecId} (hsub : ∀ f, Builds (sub f)) (l : Form)
    (args : List Form) : Builds (loop src sub l args) := by
  intro T a b rs ss r h hok
  unfold loop at hok
  split at hok
  · dsimp only at hok
    split at hok
    · exact absurd hok throw_ne_ok
    obtain ⟨lo, c, hlo, hok⟩ := bind_eq_ok.mp hok
    obtain ⟨hi, d, hhi, hok⟩ := bind_eq_ok.mp hok
    obtain ⟨targ, e, htarg, hok⟩ := bind_eq_ok.mp hok
    obtain ⟨stmts, f, hstmts, hok⟩ := bind_eq_ok.mp hok
    have hf := stmts_laid hsub (.reserve (hsub _ (hsub _ h hlo) hhi) htarg) hstmts
    have hall : Laid T f (lo :: hi :: stmts.filterMap Stmt.expr? ++ rs) ((targ : Int) :: ss) := by
      refine hf.perm (List.perm_middle.trans ?_)
      exact (List.Perm.cons hi List.perm_middle).trans (List.Perm.swap lo hi _)
    exact hall.loop hok
  · exact absurd hok throw_ne_ok
  · exact absurd hok throw_ne_ok

theorem readPad_builds (l : Form) (t : Opcode) (args : List Form) (mods : Modifiers) :
    Builds (readPad src l t args mods) := by
  intro T a b rs ss r h hok
  unfold readPad at hok
  split at hok
  · rw [bind_of_ok (get_apply a)] at hok
    split at hok
    · exact absurd hok throw_ne_ok
    · rename_i htarg
      exact h.var (Pad.has_find fun hz => htarg (by rw [hz])) hok
  · exact absurd hok throw_ne_ok
  · exact absurd hok throw_ne_ok

theorem readGlob_builds (l : Form) (args : List Form) : Builds (readGlob src l args) := by
  unfold readGlob
  split
  · exact builds_of_lays (.gv _)
  · exact builds_of_lays (.gv _)
  · exact builds_complain
  · exact builds_complain

theorem splitList_eq {l : Form} {items : List Form} {p : Bytes × List Form × Modifiers}
    (h : splitList src l items a = .ok p b) : b = a := by
  unfold splitList at h
  split at h
  · exact absurd h throw_ne_ok
  · exact (pure_eq_ok.mp h).2.symm
  · exact absurd h throw_ne_ok

theorem checkCount_eq {l : Form} {name : Bytes} {n lo : Nat} {hi? : Option Nat} {u : Unit}
    (h : checkCount src l name n lo hi? a = .ok u b) : b = a := by
  unfold checkCount at h
  split at h
  · exact absurd h throw_ne_ok
  · exact (pure_eq_ok.mp h).2.symm

theorem mem_of_lookup {table : List (String × Opcode)} {s : Bytes} {t : Opcode} (h : lookup table s = some t) :
    t ∈ table.map Prod.snd := by
  obtain ⟨p, hp, rfl⟩ := Option.map_eq_some_iff.mp h
  exact List.mem_map.mpr ⟨p, List.mem_of_find?_eq_some hp, rfl⟩

theorem headOf_ne_leaveloop {s : Bytes} {t : Opcode} (h : headOf s = .binop t) : t ≠ .leaveloop := by
  have hothers : ∀ h ∈ others.map Prod.snd, h ≠ .binop t := by
    intro h hmem
    simp only [others, List.map_cons, List.map_nil, List.mem_cons, List.not_mem_nil, or_false] at hmem
    rcases hmem with rfl | rfl | rfl | rfl | rfl | rfl | rfl | rfl | rfl | rfl | rfl | rfl | rfl | rfl | rfl | rfl |
      rfl | rfl | rfl <;> exact nofun
  unfold headOf at h
  split at h
  · cases h
  · cases h
    rintro rfl
    exact absurd (mem_of_lookup ‹lookup binops s = some _›) (by decide)
  · cases h
  · cases h
  · cases hf : others.find? fun p => utf8 p.1 == s with
    | none =>
      rw [hf] at h
      cases h
    | some p =>
      rw [hf] at h
      exact absurd h (hothers p.2 (List.mem_map.mpr ⟨p, List.mem_of_find?_eq_some hf, rfl⟩))

theorem list_builds {sub : Form → TreeM RecId} (hsub : ∀ f, Builds (sub f)) (l : Form)
    (items : List Form) : Builds (list src sub l items) := by
  intro T a b rs ss r h hok
  obtain ⟨⟨name, args, mods⟩, c, hp, hok⟩ := bind_eq_ok.mp hok
  rw [splitList_eq hp] at hok
  dsimp only at hok
  have hhead := @headOf_ne_leaveloop name
  generalize headOf name = head at hok hhead
  split at hok
  · exact absurd hok throw_ne_ok
  · exact h.lay .stub hok
  · exact declare_builds hsub l args h hok
  · exact readPad_builds l _ args mods h hok
  · exact readGlob_builds l args h hok
  · exact loop_builds hsub l args h hok
  · obtain ⟨_, d, hd, hok⟩ := bind_eq_ok.mp hok
    rw [checkCount_eq hd] at hok
    obtain ⟨ks, e, hks, hok⟩ := bind_eq_ok.mp hok
    exact operator_laid (mapM_laid hsub h hks) (fun t ht => hhead ht) hok

theorem float_builds (f : Form) (text : Bytes) : Builds (float src f text) := by
  unfold float
  split
  · exact builds_of_lays (.const _)
  · exact builds_complain
  · exact builds_complain

theorem expr_builds (src : Source) (fuel : Nat) (f : Form) : Builds (expr src fuel f) := by
  induction fuel generalizing f with
  | zero => exact builds_throw
  | succ fuel ih =>
    cases f with
    | int p s => exact builds_of_lays (.const _)
    | float p s => exact float_builds _ _
    | str p s v => exact builds_of_lays (.const _)
    | var p s => exact readVar_builds _
    | atom p s =>
      simp only [expr]
      split
      · exact builds_of_lays .stub
      · exact builds_complain
    | list p s items => exact list_builds ih _ items
    | fixed s => exact builds_complain
    | word s => exact builds_complain

end Assemble

structure Arena.Assembled (a : Arena) (t : Tree) : Prop where
  code : t.op.code = .leavesub
  /-- The first op announces the first statement. -/
  begins : ∃ u ∈ t.subtrees, u.root = t.start ∧ u.op.code = .nextstate
  finished : t.Finished
  shaped : t.Shaped
  balanced : t.Balanced
  listed : t.Listed a.pad
  slots : t.slots.Nodup
  site : a.Site [t]
  tidy : a.Tidy

namespace Tree

theorem start_of_kids {t k : Tree} {ks : List Tree} (h : t.kids = k :: ks) : t.start = k.start := by
  obtain ⟨r, o, js⟩ := t
  obtain rfl : js = k :: ks := h
  rw [start]

end Tree

namespace Build

open OpTree.Tree

/-- A block with statements begins with the announcement of the first. -/
theorem Items.begins {tail : Bool} {stmts : List Stmt} {es ks : List Tree} (h : Items tail stmts es ks)
    (hne : stmts ≠ []) (r : RecId) (o : Node) (s : RecId) (so : Node) :
    ∃ u ∈ (mk r o [grown (mk s so []) ks]).subtrees,
      u.root = (mk r o [grown (mk s so []) ks]).start ∧ u.op.code = .nextstate := by
  obtain ⟨k, js, rfl, hk, hc⟩ : ∃ k js, ks = k :: js ∧ k.kids = [] ∧ k.op.code = .nextstate := by
    cases h with
    | nil => exact absurd rfl hne
    | empty n i file => exact ⟨_, _, rfl, rfl, rfl⟩
    | expr n i file => exact ⟨_, _, rfl, rfl, rfl⟩
  have hkids := kids_grown (mk s so []) (k :: js)
  refine ⟨k, subtrees_trans (kid_mem_subtrees (List.mem_singleton_self _)) (kid_mem_subtrees ?_), ?_, hc⟩
  · rw [hkids]
    exact List.mem_cons_self ..
  · rw [start, start_of_kids hkids]
    obtain ⟨n, o, _⟩ := k
    obtain rfl := hk
    rfl

end Build

namespace TreeM

open Build OpTree.Tree

variable {T : Tuning} {a b : Arena}

theorem assemble_laid {src : Source} {s : Sub} {root : RecId} (h : Laid T a [] [])
    (hok : assemble src s a = .ok root b) :
    ∃ c stmts, stmts ≠ [] ∧ Laid T c (stmts.filterMap Stmt.expr?) [] ∧ Build.sub stmts c = .ok root b := by
  obtain ⟨stmts, c, hstmts, hok⟩ := bind_eq_ok.mp hok
  have hc := Assemble.stmts_laid (fun f => Assemble.expr_builds src _ f) h hstmts
  rw [List.append_nil] at hc
  split at hok
  · -- a sub without statements answers with nothing
    rename_i hempty
    obtain rfl := List.isEmpty_iff.mp hempty
    obtain ⟨r, d, hr, hok⟩ := bind_eq_ok.mp hok
    exact ⟨d, [{ expr? := some r }], List.cons_ne_nil _ _, (show Laid T c ([] ++ _) [] from hc).lay .stub hr, hok⟩
  · rename_i hne
    exact ⟨c, stmts, fun he => hne (List.isEmpty_iff.mpr he), hc, hok⟩

theorem assemble_tree {src : Source} {s : Sub} {root : RecId} (h : Laid T a [] [])
    (hok : assemble src s a = .ok root b) : ∃ t, t.root = root ∧ b.Assembled t ∧ b.tune = T := by
  obtain ⟨c, stmts, hne, hc, hsub⟩ := assemble_laid h hok
  obtain ⟨es, hes, hp⟩ := hc.plot
  obtain ⟨ks, s, i, j, hks, hb⟩ := sub_ok (show c.Site (es ++ []) by simpa using hp.site) hes hsub
  have hbody := hks.sprouts hp.balanced s j
  have htidied := tidies_sub stmts hp.tidy hsub
  have hlisted : ∀ e ∈ es, e.Listed b.pad := fun e he => (hp.listed e he).mono htidied.pad
  refine ⟨_, rfl, ⟨rfl, hks.begins hne _ _ _ _, finished_sub hks fun e he => (hp.made e he).finished,
    shaped_sub hks hp.shaped, ?_, ?_, ?_, hb, htidied.tidy⟩, htidied.tune.trans hp.tune⟩
  · refine ⟨nested_of_balanced (fun k hk => ?_) nofun, nofun⟩
    rw [List.mem_singleton.mp hk]
    exact hbody.balanced
  · refine listed_mk.mpr ⟨Node.listed_of_code (by simp), fun k hk => ?_⟩
    rw [List.mem_singleton.mp hk]
    exact hks.listed_grown hlisted s j
  · rw [slots_mk, List.flatMap_singleton, hbody.slots]
    exact hp.nodup.sublist (List.sublist_append_left _ _)

end TreeM

end OpTree
