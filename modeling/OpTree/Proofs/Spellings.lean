import OpTree.Cbor.Reader
import OpTree.Proofs.Widening

/-!
# Spelled items are read

The reader takes an item off the front of any text that begins with a spelling of it, within the limits, and leaves
what comes behind. So no spelling of an item is the beginning of another one, whatever the items.
-/

namespace OpTree

set_option autoImplicit false

namespace Cbor

section Heads

variable {major info width n : Nat} {bits : UInt64} {s t b : Bytes}

theorem foldl_bigEndian (a : Nat) : (bigEndian width n).foldl (fun n x => n * 256 + x.toNat) a =
    a * 256 ^ width + n % 256 ^ width := by
  induction width generalizing a with
  | zero => simp [bigEndian, Nat.mod_one]
  | succ width ih =>
    have hbyte : (n / Nat.pow 256 width % 256).toUInt8.toNat = n / 256 ^ width % 256 := by
      simp
    rw [bigEndian, List.foldl_cons, ih, hbyte, Nat.pow_succ, Nat.mod_mul, Nat.add_mul]
    ring

theorem ofBigEndian_bigEndian (h : n < 256 ^ width) : ofBigEndian (bigEndian width n) = n := by
  rw [ofBigEndian, foldl_bigEndian, Nat.zero_mul, Nat.zero_add, Nat.mod_eq_of_lt h]

theorem split?_append : split? s.length (s ++ t) = some (s, t) := by
  simp [split?]

theorem lead_toNat (hmajor : major < 8) (hinfo : info < 32) : (lead major info).toNat = major * 32 + info := by
  rw [lead, Nat.toUInt8_eq, UInt8.toNat_ofNat']
  omega

theorem lead_parts (hmajor : major < 8) (hinfo : info < 32) :
    (lead major info).toNat / 32 = major ∧ (lead major info).toNat % 32 = info := by
  rw [lead_toNat hmajor hinfo]
  omega

theorem lead_ne_break (hmajor : major < 8) (hinfo : info < 28 ∨ info < 32 ∧ major < 7) :
    lead major info ≠ breakByte := by
  intro h
  have hlead := lead_toNat hmajor (show info < 32 by omega)
  have hbreak : breakByte.toNat = 255 := rfl
  rw [h, hbreak] at hlead
  omega

theorem readHead_short (hmajor : major < 8) (hinfo : info < 24) :
    readHead (lead major info :: t) = some (⟨major, info, info⟩, t) := by
  obtain ⟨hdiv, hmod⟩ := lead_parts hmajor (show info < 32 by omega)
  simp only [readHead, hdiv, hmod, if_pos hinfo]

theorem readHead_wide {k : Nat} (hmajor : major < 8) (hk : k < 4) (hn : n < 256 ^ 2 ^ k) :
    readHead (lead major (24 + k) :: (bigEndian (2 ^ k) n ++ t)) = some (⟨major, 24 + k, n⟩, t) := by
  obtain ⟨hdiv, hmod⟩ := lead_parts hmajor (show 24 + k < 32 by omega)
  have hsplit : split? (2 ^ k) (bigEndian (2 ^ k) n ++ t) = some (bigEndian (2 ^ k) n, t) := by
    simpa only [bigEndian_length] using split?_append (s := bigEndian (2 ^ k) n)
  simp only [readHead, hdiv, hmod, Nat.add_sub_cancel_left, Nat.pow_eq, hsplit]
  rw [if_neg (by omega), if_pos (by omega)]
  simp [ofBigEndian_bigEndian hn]

theorem readHead_open (hmajor : major < 8) : readHead (lead major 31 :: t) = some (⟨major, 31, 0⟩, t) := by
  obtain ⟨hdiv, hmod⟩ := lead_parts hmajor (show 31 < 32 by decide)
  simp only [readHead, hdiv, hmod]
  rfl

theorem Leads.read (h : Leads major n b) (hmajor : major < 8) : ∃ info, info < 28 ∧
    (∃ s, b = lead major info :: s) ∧ ∀ t, readHead (b ++ t) = some (⟨major, info, n⟩, t) := by
  cases h with
  | short hn => exact ⟨n, by omega, ⟨[], rfl⟩, fun t => readHead_short hmajor hn⟩
  | @wide k hk hn => exact ⟨24 + k, by omega, ⟨_, rfl⟩, fun t => readHead_wide hmajor hk hn⟩

theorem isOpen_eq_false {info : Nat} (h : info < 28) : (Head.mk major info n).isOpen = false := by
  simp only [Head.isOpen, beq_eq_false_iff_ne, ne_eq]
  omega

end Heads

theorem startsTag_lead {major info : Nat} {s : Bytes} (hmajor : major < 8) (hinfo : info < 32) :
    startsTag (lead major info :: s) = (major == 6) := by
  rw [startsTag, List.head?_cons, Option.any_some, (lead_parts hmajor hinfo).1]

theorem item?_of_readHead {l : Limits} {fuel levels : Nat} {s r : Bytes} {hd : Head} (h : readHead s = some (hd, r)) :
    item? l (fuel + 1) levels s = match hd.major with
    | 0 => if hd.isOpen then none else some (.nat hd.arg, r)
    | 1 => if hd.isOpen then none else some (.neg hd.arg, r)
    | 2 => bytes? hd r
    | 3 => text? hd r
    | 4 =>
      if levels = 0 then none
      else (items? (item? l fuel (levels - 1)) l.elements hd 1 r).map fun (cs, s) => (.array cs, s)
    | 5 =>
      if levels = 0 then none
      else (items? (item? l fuel (levels - 1)) l.pairs hd 2 r).map fun (cs, s) => (.map cs, s)
    | 6 =>
      if hd.isOpen || (startsTag r && levels = 0) then none
      else
        (item? l fuel (if startsTag r then levels - 1 else levels) r).map fun (c, s) =>
          (.tag hd.arg c, s)
    | _ => (primitive? hd).map fun c => (c, r) := by
  rw [item?, h]
  rfl

/-- A text is read as an item if that is within the limits, and what comes behind it is left. It begins with a byte
that tells a tag from other items and from the end of a collection. -/
structure ReadAs (l : Limits) (fuel levels : Nat) (c : Cbor) (b : Bytes) : Prop where
  front : ∃ major info s, b = lead major info :: s ∧ major < 8 ∧ (info < 28 ∨ info < 32 ∧ major < 7) ∧
    (major == 6) = c.isTag
  item : ∀ t, item? l fuel levels (b ++ t) = if within l levels c then some (c, t) else none

/-- The same of a row of items, of which the number is known or that ends with a break. -/
structure RowReadAs (l : Limits) (fuel levels : Nat) (cs : List Cbor) (b : Bytes) : Prop where
  many : ∀ t, many? (item? l fuel levels) cs.length (b ++ t) = if allWithin l levels cs then some (cs, t) else none
  untilBreak : ∀ k t, cs.length < k →
    untilBreak? (item? l fuel levels) k (b ++ breakByte :: t) = if allWithin l levels cs then some (cs, t) else none

section Rows

variable {l : Limits} {fuel levels major n : Nat} {c : Cbor} {cs ds : List Cbor} {b s t : Bytes} {ss : List Bytes}

theorem rowReadAs_nil : RowReadAs l fuel levels [] [] where
  many t := rfl
  untilBreak k t hk := by
    obtain ⟨k, rfl⟩ := Nat.exists_eq_add_of_lt hk
    simp [untilBreak?, allWithin]

theorem ReadAs.startsTag (h : ReadAs l fuel levels c b) (t : Bytes) : startsTag (b ++ t) = c.isTag := by
  obtain ⟨major, info, s, rfl, hmajor, hinfo, htag⟩ := h.front
  rw [List.cons_append, startsTag_lead hmajor (by omega), htag]

theorem ReadAs.head_ne_break (h : ReadAs l fuel levels c b) (t : Bytes) :
    ((b ++ t).head? == some breakByte) = false := by
  obtain ⟨major, info, s, rfl, hmajor, hinfo, -⟩ := h.front
  simpa using lead_ne_break hmajor hinfo

theorem ReadAs.cons (hc : ReadAs l fuel levels c b) (hcs : RowReadAs l fuel levels cs t) :
    RowReadAs l fuel levels (c :: cs) (b ++ t) where
  many u := by
    rw [List.append_assoc, List.length_cons, many?, hc.item, allWithin]
    cases within l levels c
    · rfl
    · simp only [if_true, Bool.true_and, Option.bind_eq_bind, Option.bind_some, hcs.many]
      cases allWithin l levels cs <;> rfl
  untilBreak k u hk := by
    obtain ⟨k, rfl⟩ := Nat.exists_eq_succ_of_ne_zero (Nat.ne_of_gt (Nat.lt_of_le_of_lt (Nat.zero_le _) hk))
    rw [List.append_assoc, untilBreak?, hc.head_ne_break, hc.item, allWithin]
    cases within l levels c
    · rfl
    · simp only [Bool.false_eq_true, if_false, if_true, Bool.true_and, Option.bind_eq_bind, Option.bind_some,
        hcs.untilBreak k u (Nat.lt_of_succ_lt_succ hk)]
      cases allWithin l levels cs <;> rfl

theorem Chunks.read (h : Chunks major ss t) (hmajor : major < 8) :
    ∀ k u, ss.length < k → chunks? major k (t ++ breakByte :: u) = some (ss, u) := by
  induction h with
  | nil =>
    intro k u hk
    obtain ⟨k, rfl⟩ := Nat.exists_eq_add_of_lt hk
    simp [chunks?]
  | @cons s b t ss hb _ ih =>
    intro k u hk
    obtain ⟨k, rfl⟩ := Nat.exists_eq_succ_of_ne_zero (Nat.ne_of_gt (Nat.lt_of_le_of_lt (Nat.zero_le _) hk))
    obtain ⟨info, hinfo, ⟨r, hr⟩, hread⟩ := hb.read hmajor
    have hfront : ((b ++ s ++ t ++ breakByte :: u).head? == some breakByte) = false := by
      rw [hr]
      simpa using lead_ne_break hmajor (Or.inl hinfo)
    have hrest := ih k u (Nat.lt_of_succ_lt_succ hk)
    rw [chunks?, hfront, List.append_assoc, List.append_assoc, hread]
    simp [isOpen_eq_false hinfo, split?_append, hrest]

theorem Chunks.length_le (h : Chunks major ss t) : ss.length ≤ t.length := by
  induction h with
  | nil => exact Nat.le_refl 0
  | @cons s b t ss hb _ ih =>
    have hpos : 0 < b.length := by
      cases hb <;> exact Nat.succ_pos _
    simp only [List.length_cons, List.length_append]
    omega

theorem readAs_of_leads (h : Leads major n b) (hmajor : major < 8) (htag : (major == 6) = c.isTag)
    (hread : ∀ info t r, info < 28 → readHead r = some (⟨major, info, n⟩, s ++ t) →
      item? l fuel levels r = if within l levels c then some (c, t) else none) :
    ReadAs l fuel levels c (b ++ s) := by
  obtain ⟨info, hinfo, ⟨r, hb⟩, hhead⟩ := h.read hmajor
  refine ⟨⟨major, info, r ++ s, by rw [hb]; rfl, hmajor, Or.inl hinfo, htag⟩, fun t => ?_⟩
  rw [List.append_assoc]
  exact hread info t _ hinfo (hhead (s ++ t))

theorem primitive?_short (h : n < 24) : primitive? ⟨7, n, n⟩ = some (.simple n) := by
  unfold primitive?
  split <;> first | rfl | (simp only at *; omega)

theorem readAs_primitive {k : Nat} (hk : k < 4) (h : n < 256 ^ 2 ^ k) (hc : primitive? ⟨7, 24 + k, n⟩ = some c)
    (hwithin : within l levels c = true) (htag : c.isTag = false) :
    ReadAs l (fuel + 1) levels c (lead 7 (24 + k) :: bigEndian (2 ^ k) n) := by
  refine ⟨⟨7, 24 + k, _, rfl, by decide, Or.inl (by omega), htag.symm⟩, fun t => ?_⟩
  have hread : readHead (lead 7 (24 + k) :: (bigEndian (2 ^ k) n ++ t)) = _ := readHead_wide (by decide) hk h
  rw [List.cons_append, item?_of_readHead hread, hwithin]
  simp [hc]

theorem Atom.readAs (h : Atom c b) : ReadAs l (fuel + 1) levels c b := by
  cases h with
  | @nat n b h =>
    have hc : ReadAs l (fuel + 1) levels (.nat n) (b ++ []) := by
      refine readAs_of_leads h (by decide) rfl fun info t r hinfo hr => ?_
      rw [item?_of_readHead hr]
      simp [isOpen_eq_false hinfo, within]
    rwa [List.append_nil] at hc
  | @neg n b h =>
    have hc : ReadAs l (fuel + 1) levels (.neg n) (b ++ []) := by
      refine readAs_of_leads h (by decide) rfl fun info t r hinfo hr => ?_
      rw [item?_of_readHead hr]
      simp [isOpen_eq_false hinfo, within]
    rwa [List.append_nil] at hc
  | bytes h =>
    refine readAs_of_leads h (by decide) rfl fun info t r hinfo hr => ?_
    rw [item?_of_readHead hr]
    simp [isOpen_eq_false hinfo, bytes?, split?_append, within]
  | text h =>
    refine readAs_of_leads h (by decide) rfl fun info t r hinfo hr => ?_
    rw [item?_of_readHead hr]
    simp [isOpen_eq_false hinfo, text?, split?_append, within]
  | @openBytes ss t h =>
    refine ⟨⟨2, 31, _, rfl, by decide, Or.inr (by decide), rfl⟩, fun u => ?_⟩
    have hlen : ss.length < (t ++ breakByte :: u).length + 1 := by
      have hle := h.length_le
      rw [List.length_append]
      omega
    have hchunks := h.read (by decide) _ u hlen
    rw [List.cons_append, List.append_assoc, List.singleton_append, item?_of_readHead (readHead_open (by decide))]
    simp only [bytes?, Head.isOpen, beq_self_eq_true, if_true, hchunks, within, Option.map_some]
  | @openText ss t h =>
    refine ⟨⟨3, 31, _, rfl, by decide, Or.inr (by decide), rfl⟩, fun u => ?_⟩
    have hlen : ss.length < (t ++ breakByte :: u).length + 1 := by
      have hle := h.length_le
      rw [List.length_append]
      omega
    have hchunks := h.read (by decide) _ u hlen
    rw [List.cons_append, List.append_assoc, List.singleton_append, item?_of_readHead (readHead_open (by decide))]
    simp only [text?, Head.isOpen, beq_self_eq_true, if_true, hchunks, within, Option.map_some]
  | simple h =>
    refine ⟨⟨7, _, _, rfl, by decide, Or.inl (by omega), rfl⟩, fun t => ?_⟩
    rw [List.singleton_append, item?_of_readHead (readHead_short (by decide) h)]
    simp [primitive?_short h, within]
  | wideSimple h h' => exact readAs_primitive (k := 0) (by decide) h' (if_neg (Nat.not_lt.mpr h)) rfl rfl
  | half h => exact readAs_primitive (k := 1) (by decide) h rfl rfl rfl
  | single h => exact readAs_primitive (k := 2) (by decide) h rfl rfl rfl
  | double h => exact readAs_primitive (k := 3) (by decide) h rfl rfl rfl

theorem collection_read {one : Bytes → Option (Cbor × Bytes)} {info most k : Nat} {u : Bytes} {ok : Bool}
    {wrap : List Cbor → Cbor} (hinfo : info < 28)
    (h : many? one (k * n) s = if ok then some (cs, u) else none) :
    (if levels = 0 then none
      else (items? one most ⟨major, info, n⟩ k s).map fun (cs, s) => (wrap cs, s)) =
      if 0 < levels && n ≤ most && ok then some (wrap cs, u) else none := by
  rw [items?, isOpen_eq_false hinfo]
  by_cases hlevels : levels = 0
  · simp [hlevels]
  · by_cases hn : n ≤ most
    · cases ok <;> simp [hlevels, hn, h, Nat.pos_of_ne_zero]
    · simp [hlevels, hn]

theorem open_collection_read {one : Bytes → Option (Cbor × Bytes)} {most k : Nat} {u : Bytes} {ok : Bool}
    {wrap : List Cbor → Cbor} (hk : 0 < k) (hn : cs.length = k * n)
    (h : untilBreak? one (s.length + 1) s = if ok then some (cs, u) else none) :
    (if levels = 0 then none
      else (items? one most ⟨major, 31, 0⟩ k s).map fun (cs, s) => (wrap cs, s)) =
      if 0 < levels && n ≤ most && ok then some (wrap cs, u) else none := by
  have hdiv : cs.length / k = n := by rw [hn, Nat.mul_div_cancel_left n hk]
  have hmod : cs.length % k = 0 := by rw [hn, Nat.mul_mod_right]
  have hopen : (Head.mk major 31 0).isOpen = true := rfl
  rw [items?, hopen, if_pos rfl, h]
  by_cases hlevels : levels = 0
  · simp [hlevels]
  · by_cases hle : n ≤ most
    · cases ok <;> simp [hlevels, hle, hdiv, hmod, Nat.pos_of_ne_zero]
    · cases ok <;> simp [hlevels, hle, hdiv]

end Rows

section Spells

variable {l : Limits} {fuel levels : Nat} {c : Cbor} {cs : List Cbor} {b : Bytes}

theorem Leads.front {major n : Nat} (h : Leads major n b) : ∃ info s, b = lead major info :: s ∧ info < 28 := by
  cases h with
  | short hn => exact ⟨n, [], rfl, by omega⟩
  | @wide k hk => exact ⟨24 + k, _, rfl, by omega⟩

theorem Spells.front (h : Spells (c :: cs) b) : ∃ major info s, b = lead major info :: s ∧ major < 8 ∧ info < 32 ∧
    (major == 6) = c.isTag := by
  cases h with
  | atom h =>
    obtain ⟨major, info, s, rfl, hmajor, hinfo, htag⟩ := (@Atom.readAs ⟨0, 0, 0⟩ 0 0 _ _ h).front
    exact ⟨major, info, _, rfl, hmajor, by omega, htag⟩
  | array h | map h | tag h =>
    obtain ⟨info, s, rfl, hinfo⟩ := h.front
    exact ⟨_, info, _, rfl, by decide, by omega, rfl⟩
  | openArray | openMap => exact ⟨_, 31, _, rfl, by decide, by decide, rfl⟩

theorem Spells.length_le (h : Spells cs b) : cs.length ≤ b.length := by
  induction h with
  | nil => exact Nat.le_refl 0
  | atom h _ ih =>
    obtain ⟨major, info, s, rfl, -⟩ := (@Atom.readAs ⟨0, 0, 0⟩ 0 0 _ _ h).front
    simp only [List.length_cons, List.length_append]
    omega
  | array h _ _ _ ih | map h _ _ _ _ ih | tag h _ _ _ ih =>
    obtain ⟨info, s, rfl, -⟩ := h.front
    simp only [List.length_cons, List.length_append]
    omega
  | openArray _ _ _ ih | openMap _ _ _ _ ih =>
    simp only [List.length_cons, List.length_append]
    omega

theorem RowReadAs.single (h : RowReadAs l fuel levels [c] b) (t : Bytes) :
    item? l fuel levels (b ++ t) = if within l levels c then some (c, t) else none := by
  have hmany := h.many t
  have hmap : many? (item? l fuel levels) [c].length (b ++ t) =
      (item? l fuel levels (b ++ t)).map fun p => ([p.1], p.2) := by
    rw [List.length_singleton, many?]
    cases item? l fuel levels (b ++ t) <;> rfl
  rw [hmap, allWithin, allWithin, Bool.and_true] at hmany
  revert hmany
  cases hitem : item? l fuel levels (b ++ t) with
  | none => cases within l levels c <;> simp
  | some p =>
    cases within l levels c with
    | false => simp
    | true =>
      intro hmany
      obtain ⟨d, u⟩ := p
      simpa using hmany

end Spells

section Read

variable {l : Limits} {cs : List Cbor} {b : Bytes}

theorem Spells.read (h : Spells cs b) : ∀ fuel levels, b.length < fuel → RowReadAs l fuel levels cs b := by
  have hleads : ∀ {major n : Nat} {b : Bytes}, Leads major n b → 0 < b.length := fun h => by
    obtain ⟨info, s, rfl, -⟩ := h.front
    exact Nat.succ_pos _
  induction h with
  | nil => exact fun _ _ _ => rowReadAs_nil
  | @atom c cs b t h hs ih =>
    intro fuel levels hf
    rw [List.length_append] at hf
    obtain ⟨fuel, rfl⟩ := Nat.exists_eq_succ_of_ne_zero (Nat.ne_of_gt (Nat.lt_of_le_of_lt (Nat.zero_le _) hf))
    exact h.readAs.cons (ih _ _ (by omega))
  | @array ds cs b s t h hd hs ihd ih =>
    intro fuel levels hf
    have hpos := hleads h
    simp only [List.length_append] at hf
    obtain ⟨fuel, rfl⟩ := Nat.exists_eq_succ_of_ne_zero (show fuel ≠ 0 by omega)
    have hrow := ihd fuel (levels - 1) (by omega)
    refine ReadAs.cons ?_ (ih _ _ (by omega))
    refine readAs_of_leads h (by decide) rfl fun info u r hinfo hr => ?_
    have hmany := hrow.many u
    rw [← Nat.one_mul ds.length] at hmany
    rw [item?_of_readHead hr, within]
    exact collection_read hinfo hmany
  | @openArray ds cs s t hd hs ihd ih =>
    intro fuel levels hf
    simp only [List.length_append, List.length_cons] at hf
    obtain ⟨fuel, rfl⟩ := Nat.exists_eq_succ_of_ne_zero (show fuel ≠ 0 by omega)
    have hrow := ihd fuel (levels - 1) (by omega)
    refine ReadAs.cons ⟨⟨4, 31, _, rfl, by decide, Or.inr (by decide), rfl⟩, fun u => ?_⟩ (ih _ _ (by omega))
    have hlen : ds.length < (s ++ breakByte :: u).length + 1 := by
      have hle := hd.length_le
      rw [List.length_append]
      omega
    rw [List.cons_append, List.append_assoc, List.singleton_append, item?_of_readHead (readHead_open (by decide)),
      within]
    exact open_collection_read Nat.one_pos (Nat.one_mul _).symm (hrow.untilBreak _ u hlen)
  | @map ds cs n b s t h hn hd hs ihd ih =>
    intro fuel levels hf
    have hpos := hleads h
    simp only [List.length_append] at hf
    obtain ⟨fuel, rfl⟩ := Nat.exists_eq_succ_of_ne_zero (show fuel ≠ 0 by omega)
    have hrow := ihd fuel (levels - 1) (by omega)
    refine ReadAs.cons ?_ (ih _ _ (by omega))
    refine readAs_of_leads h (by decide) rfl fun info u r hinfo hr => ?_
    have hmany := hrow.many u
    rw [hn] at hmany
    rw [item?_of_readHead hr, within, hn, Nat.mul_div_cancel_left n Nat.two_pos]
    exact collection_read hinfo hmany
  | @openMap ds cs n s t hn hd hs ihd ih =>
    intro fuel levels hf
    simp only [List.length_append, List.length_cons] at hf
    obtain ⟨fuel, rfl⟩ := Nat.exists_eq_succ_of_ne_zero (show fuel ≠ 0 by omega)
    have hrow := ihd fuel (levels - 1) (by omega)
    refine ReadAs.cons ⟨⟨5, 31, _, rfl, by decide, Or.inr (by decide), rfl⟩, fun u => ?_⟩ (ih _ _ (by omega))
    have hlen : ds.length < (s ++ breakByte :: u).length + 1 := by
      have hle := hd.length_le
      rw [List.length_append]
      omega
    rw [List.cons_append, List.append_assoc, List.singleton_append, item?_of_readHead (readHead_open (by decide)),
      within, hn,
      Nat.mul_div_cancel_left n Nat.two_pos]
    exact open_collection_read Nat.two_pos hn (hrow.untilBreak _ u hlen)
  | @tag n c cs b s t h hc hs ihc ih =>
    intro fuel levels hf
    have hpos := hleads h
    simp only [List.length_append] at hf
    obtain ⟨fuel, rfl⟩ := Nat.exists_eq_succ_of_ne_zero (show fuel ≠ 0 by omega)
    refine ReadAs.cons ?_ (ih _ _ (by omega))
    refine readAs_of_leads h (by decide) rfl fun info u r hinfo hr => ?_
    obtain ⟨major, i, s', hs', hmajor, hi, htag⟩ := hc.front
    have hstarts : startsTag (s ++ u) = c.isTag := by
      rw [hs', List.cons_append, startsTag_lead hmajor hi, htag]
    have hone := fun levels => (ihc fuel levels (by omega)).single u
    rw [item?_of_readHead hr, within]
    simp only [isOpen_eq_false hinfo, hstarts, hone, Bool.false_or]
    cases htagged : c.isTag with
    | false => cases hw : within l levels c <;> simp [hw]
    | true =>
      by_cases hlevels : levels = 0
      · simp [hlevels]
      · cases hw : within l (levels - 1) c <;> simp [hlevels, hw, Nat.pos_of_ne_zero]

theorem within_array {levels : Nat} (hlen : cs.length ≤ l.elements) (hl : 0 < levels)
    (h : allWithin l (levels - 1) cs = true) : within l levels (.array cs) = true := by
  rw [within, h, decide_eq_true hlen, decide_eq_true hl]
  rfl

theorem within_map {levels : Nat} (hlen : cs.length / 2 ≤ l.pairs) (hl : 0 < levels)
    (h : allWithin l (levels - 1) cs = true) : within l levels (.map cs) = true := by
  rw [within, h, decide_eq_true hlen, decide_eq_true hl]
  rfl

theorem Spells.within (h : Spells cs b) (levels : Nat) (he : b.length ≤ l.elements) (hp : b.length ≤ l.pairs)
    (hl : b.length ≤ levels) : allWithin l levels cs = true := by
  have hleads : ∀ {major n : Nat} {b : Bytes}, Leads major n b → 0 < b.length := fun h => by
    obtain ⟨info, s, rfl, -⟩ := h.front
    exact Nat.succ_pos _
  induction h generalizing levels with
  | nil => rfl
  | @atom c cs b t h _ ih =>
    rw [List.length_append] at he hp hl
    have hc : Cbor.within l levels c = true := by
      cases h <;> rfl
    rw [allWithin, hc, ih levels (by omega) (by omega) (by omega)]
    rfl
  | array h hd _ ihd ih =>
    simp only [List.length_append] at he hp hl
    have hpos := hleads h
    have hlen := hd.length_le
    have hall := ihd (levels - 1) (by omega) (by omega) (by omega)
    rw [allWithin, within_array (by omega) (by omega) hall, ih levels (by omega) (by omega) (by omega)]
    rfl
  | openArray hd _ ihd ih =>
    simp only [List.length_append, List.length_cons] at he hp hl
    have hlen := hd.length_le
    have hall := ihd (levels - 1) (by omega) (by omega) (by omega)
    rw [allWithin, within_array (by omega) (by omega) hall, ih levels (by omega) (by omega) (by omega)]
    rfl
  | map h _ hd _ ihd ih =>
    simp only [List.length_append] at he hp hl
    have hpos := hleads h
    have hlen := hd.length_le
    have hall := ihd (levels - 1) (by omega) (by omega) (by omega)
    rw [allWithin, within_map (by omega) (by omega) hall, ih levels (by omega) (by omega) (by omega)]
    rfl
  | openMap _ hd _ ihd ih =>
    simp only [List.length_append, List.length_cons] at he hp hl
    have hlen := hd.length_le
    have hall := ihd (levels - 1) (by omega) (by omega) (by omega)
    rw [allWithin, within_map (by omega) (by omega) hall, ih levels (by omega) (by omega) (by omega)]
    rfl
  | @tag n c cs b s t h _ _ ihc ih =>
    simp only [List.length_append] at he hp hl
    have hpos := hleads h
    have hdeep := ihc (levels - 1) (by omega) (by omega) (by omega)
    have hflat := ihc levels (by omega) (by omega) (by omega)
    rw [allWithin, allWithin, Bool.and_true] at hdeep hflat
    have hlevels : 0 < levels := by omega
    rw [allWithin, Cbor.within, hdeep, hflat, ih levels (by omega) (by omega) (by omega), decide_eq_true hlevels]
    split <;> rfl

/-- **Self-delimiting.** Bytes spell one item only, and they are not the beginning of what spells another one. -/
theorem Spells.eq_of_append {c d : Cbor} {t : Bytes} (hc : Spells [c] b) (hd : Spells [d] (b ++ t)) :
    c = d ∧ t = [] := by
  -- a reader whose limits are out of the way
  obtain ⟨n, hn⟩ : ∃ n, n = (b ++ t).length := ⟨_, rfl⟩
  have hle : b.length ≤ n := by
    rw [hn, List.length_append]
    omega
  have hread := (hc.read (l := ⟨n, n, n⟩) (n + 1) n (by omega)).single t
  have hwhole := (hd.read (l := ⟨n, n, n⟩) (n + 1) n (by omega)).single []
  have hwithin := hc.within (l := ⟨n, n, n⟩) n hle hle hle
  have hwithin' := hd.within (l := ⟨n, n, n⟩) n (Nat.le_of_eq hn.symm) (Nat.le_of_eq hn.symm) (Nat.le_of_eq hn.symm)
  rw [allWithin, allWithin, Bool.and_true] at hwithin hwithin'
  rw [hwithin, if_pos rfl] at hread
  rw [hwithin', if_pos rfl, List.append_nil, hread] at hwhole
  exact Prod.mk.inj (Option.some.inj hwhole)

end Read

end Cbor

end OpTree
