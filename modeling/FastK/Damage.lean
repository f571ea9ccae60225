import FastK.ManifestCodec
import FastK.Lib.Digests
import Mathlib.Data.Nat.ModEq
/-!
# Damaged manifests

One step of the checksum, an exclusive or with the byte and a multiplication by an odd number modulo a power of two, is
injective in the digest and in the byte, so byte strings that differ in one place have different checksums.  The other
bytes of a manifest that are compared are the magic, the version and the checksum itself: one byte changed outside the
flags is always noticed (`damage_detected`).
-/
namespace FastK

open Codec Digests

/-! ## The checksum -/

theorem xor_right_cancel {x y z : Nat} (h : x ^^^ z = y ^^^ z) : x = y := by
  have h' := congrArg (· ^^^ z) h
  simpa [Nat.xor_assoc] using h'

theorem xor_left_cancel {x y z : Nat} (h : z ^^^ x = z ^^^ y) : x = y := by
  rw [Nat.xor_comm z x, Nat.xor_comm z y] at h
  exact xor_right_cancel h

/-- The prime is odd, so multiplying by it can be undone modulo a power of two. -/
theorem mul_prime_inj {x y : Nat} (hx : x < u64Bound) (hy : y < u64Bound)
    (h : x * 0x100000001b3 % u64Bound = y * 0x100000001b3 % u64Bound) : x = y := by
  have hcop : Nat.gcd u64Bound 0x100000001b3 = 1 := by decide
  have hmod : x ≡ y [MOD u64Bound] := Nat.ModEq.cancel_right_of_coprime hcop h
  exact hmod.eq_of_lt_of_lt hx hy

theorem xor_byte_lt {x b : Nat} (hx : x < u64Bound) (hb : b < 256) : x ^^^ b < u64Bound :=
  Nat.xor_lt_two_pow hx (lt_trans hb (by decide))

/-- **A step of the checksum tells digests and bytes apart.** -/
theorem checksum_telling : Telling (· < u64Bound) (· < 256)
    (fun digest byte => (digest ^^^ byte) * 0x100000001b3 % u64Bound) where
  closed := fun _ _ => Nat.mod_lt _ (by decide)
  state_inj := fun hs hs' ht h => xor_right_cancel (mul_prime_inj (xor_byte_lt hs ht) (xor_byte_lt hs' ht) h)
  token_inj := fun hs ht ht' h => xor_left_cancel (mul_prime_inj (xor_byte_lt hs ht) (xor_byte_lt hs ht') h)

theorem checksum64_ne {l r : List Nat} {x y : Nat} (hl : ∀ b ∈ l, b < 256) (hr : ∀ b ∈ r, b < 256) (hx : x < 256)
    (hy : y < 256) (hne : x ≠ y) : checksum64 (l ++ x :: r) ≠ checksum64 (l ++ y :: r) :=
  checksum_telling.foldl_ne (by decide) hl hr hx hy hne

/-! ## Bytes -/

theorem leBytes_bytes : ∀ (w : Nat) (z : Int), ∀ b ∈ leBytes w z, b < 256
  | 0, _, _, h => by cases h
  | w + 1, z, b, h => by
    rcases List.mem_cons.1 h with rfl | h
    · have := Int.emod_lt_of_pos z (show (0 : Int) < 256 by decide)
      omega
    · exact leBytes_bytes w (z / 256) b h

theorem utf8_bytes (t : Text) : ∀ b ∈ utf8 t, b < 256 := by
  intro b hb
  obtain ⟨c, -, hc⟩ := List.mem_flatMap.1 hb
  obtain ⟨u, -, rfl⟩ := List.mem_map.1 hc
  exact u.toNat_lt

theorem emits_putStr (t : Text) : Emits (· < 256) (putStr t) :=
  (emits_check _).bind ((emits_put (leBytes_bytes _ _)).bind (emits_put (utf8_bytes t)))

theorem emits_putSidecar (s : SidecarMeta) : Emits (· < 256) (putSidecar s) :=
  (emits_putStr _).bind <| (emits_putStr _).bind <| (emits_put (leBytes_bytes _ _)).bind <|
    (emits_put (leBytes_bytes _ _)).bind <|
    (emits_put (leBytes_bytes _ _)).bind (emits_put (leBytes_bytes _ _))

theorem emits_putChunk (c : ChunkMeta) : Emits (· < 256) (putChunk c) :=
  (emits_put (leBytes_bytes _ _)).bind <| (emits_putStr _).bind <| (emits_put (leBytes_bytes _ _)).bind <|
    (emits_put (leBytes_bytes _ _)).bind <| (emits_put (leBytes_bytes _ _)).bind <|
      (emits_put (leBytes_bytes _ _)).bind <|
    (emits_put (leBytes_bytes _ _)).bind <| (emits_put (leBytes_bytes _ _)).bind <|
      (emits_put (leBytes_bytes _ _)).bind <|
    (emits_put (leBytes_bytes _ _)).bind <| (emits_put (leBytes_bytes _ _)).bind <|
      (emits_put (leBytes_bytes _ _)).bind <|
    (emits_put (leBytes_bytes _ _)).bind <| (emits_putStr _).bind <| (emits_put (leBytes_bytes _ _)).bind <|
    Emits.forEach emits_putSidecar c.sidecars

theorem emits_putBody (m : SeriesMeta) : Emits (· < 256) (putBody m) :=
  (emits_put (leBytes_bytes _ _)).bind <| (emits_put (leBytes_bytes _ _)).bind <|
    (emits_put (leBytes_bytes _ _)).bind <|
    (emits_put (leBytes_bytes _ _)).bind <| (emits_put (leBytes_bytes _ _)).bind <|
      (emits_put (leBytes_bytes _ _)).bind <|
    (emits_put (leBytes_bytes _ _)).bind <| (emits_put (leBytes_bytes _ _)).bind <|
      (emits_put (leBytes_bytes _ _)).bind <|
    (emits_put (leBytes_bytes _ _)).bind <| (emits_putStr _).bind <| (emits_put (leBytes_bytes _ _)).bind <|
      (emits_putStr _).bind <|
    (emits_putStr _).bind <| (emits_putStr _).bind <| (emits_put (leBytes_bytes _ _)).bind <| Emits.forEach
      emits_putChunk m.chunks

theorem body_bytes {m : SeriesMeta} {body : List Nat} (h : putBody m [] = .ok ((), body)) : ∀ b ∈ body, b < 256 := by
  obtain ⟨tokens, h1, h2⟩ := emits_putBody m [] _ h
  rw [List.nil_append] at h1
  simp only at h1
  rw [h1]
  exact h2

/-! ## The header -/

/-- The four parts before the body are read as they stand, and three of them are compared. -/
theorem decodeManifest_fails {magic version flags sum body : List Nat} (h1 : magic.length = 8) (h2 : version.length = 4)
    (h3 : flags.length = 4) (h4 : sum.length = 8)
    (h : magic ≠ manifestMagic ∨ ofLeBytes version ≠ manifestVersion ∨ checksum64 body ≠ ofLeBytes sum) :
    ∃ e, decodeManifest (magic ++ (version ++ (flags ++ (sum ++ body)))) = .error e := by
  have hread : Reads readHeader (version ++ (flags ++ sum)) (ofLeBytes version, ofLeBytes flags, ofLeBytes sum) :=
    (reads_field h2).bind ((reads_field h3).bind ((reads_field h4).andThen (reads_pure _)))
  have hparts := hread body
  rw [List.append_assoc, List.append_assoc] at hparts
  have htake : (magic ++ (version ++ (flags ++ (sum ++ body)))).take 8 = magic := by rw [← h1, List.take_left]
  have hdrop : (magic ++ (version ++ (flags ++ (sum ++ body)))).drop 8 = version ++ (flags ++ (sum ++ body)) := by
    rw [← h1, List.drop_left]
  have hbody : (magic ++ (version ++ (flags ++ (sum ++ body)))).drop manifestHeaderLen = body := by
    have hlen : (magic ++ version ++ flags ++ sum).length = manifestHeaderLen := by
      simp only [List.length_append, h1, h2, h3, h4]
      rfl
    rw [← hlen, ← List.append_assoc, ← List.append_assoc, ← List.append_assoc, List.drop_left]
  unfold decodeManifest
  split_ifs with hshort hmagic
  · exact ⟨_, rfl⟩
  · exact ⟨_, rfl⟩
  · rw [htake, ne_eq, not_not] at hmagic
    rw [hdrop, hparts, hbody]
    simp only
    split_ifs with hversion hsum
    · exact ⟨_, rfl⟩
    · exact ⟨_, rfl⟩
    · rw [ne_eq, not_not] at hversion hsum
      exact absurd h (by simp [hmagic, hversion, hsum])

theorem ofLeBytes_set_ne {w : Nat} {z : Int} {i b : Nat} (hi : i < w) (hb : b < 256)
    (hne : (leBytes w z)[i]? ≠ some b) :
    ofLeBytes ((leBytes w z).set i b) ≠ ofLeBytes (leBytes w z) := by
  intro heq
  have hset := Nat.ofDigits_inj_of_len_eq (show 1 < 256 by decide) (by simp) (fun x hx => ?_) (leBytes_bytes w z) heq
  · apply hne
    rw [← hset, List.getElem?_set_self (by rw [length_leBytes]; exact hi)]
  · rcases List.mem_or_eq_of_mem_set hx with hx | rfl
    · exact leBytes_bytes w z x hx
    · exact hb

theorem checksum64_set_ne {body : List Nat} {i b : Nat} (hbody : ∀ x ∈ body, x < 256) (hi : i < body.length)
    (hb : b < 256) (hne : body[i]? ≠ some b) : checksum64 (body.set i b) ≠ checksum64 body := by
  rw [List.getElem?_eq_getElem hi] at hne
  have hold : body = body.take i ++ body[i] :: body.drop (i + 1) := by
    rw [← List.drop_eq_getElem_cons, List.take_append_drop]
  rw [List.set_eq_take_append_cons_drop, if_pos hi]
  conv => rhs; rw [hold]
  exact checksum64_ne (fun x hx => hbody x (List.mem_of_mem_take hx)) (fun x hx => hbody x (List.mem_of_mem_drop hx)) hb
    (hbody _ (List.getElem_mem hi)) (fun heq => hne (congrArg some heq.symm))

/-- **Damage is detected.**  Byte strings of one length that differ in exactly one place have different checksums; and a
manifest in which one byte outside the flags has been replaced by another is not decoded. -/
theorem damage_detected :
    (∀ a b : List Nat, (∀ x ∈ a, x < 256) → (∀ x ∈ b, x < 256) → a.length = b.length → (∃! i : Nat, a[i]? ≠ b[i]?) →
      checksum64 a ≠ checksum64 b) ∧
    ∀ (m : SeriesMeta) (bytes : List Nat), encodeManifest m = .ok bytes → ∀ i b : Nat, i < bytes.length → b < 256 →
      bytes[i]? ≠ some b →
      ¬ (12 ≤ i ∧ i < 16) → ∃ e, decodeManifest (bytes.set i b) = .error e := by
  constructor
  · rintro a b ha hb hlen ⟨i, hi, hone⟩
    obtain ⟨l, r, t, t', rfl, rfl, hne⟩ := split_of_one_place hlen hi hone
    exact checksum64_ne (fun x hx => ha x (by simp [hx]))
      (fun x hx => ha x (by simp [hx])) (ha t (by simp)) (hb t' (by simp)) hne
  · intro m bytes h i b hi hb hne hflags
    unfold encodeManifest at h
    cases hv : m.validate with
    | error e => rw [hv] at h; cases h
    | ok u =>
      rw [hv] at h
      cases hput : putBody m [] with
      | error e => rw [hput] at h; cases h
      | ok p =>
        obtain ⟨_, body⟩ := p
        rw [hput] at h
        obtain rfl := Except.ok.inj h
        have hbytes := body_bytes hput
        have hlen := manifestHeader_length m body
        have h4 := length_leBytes 4 manifestVersion
        have h4' := length_leBytes 4 m.flags
        have h8 := length_leBytes 8 (checksum64 body)
        have hsum := ofLeBytes_unsigned (checksum64_unsigned body)
        have hversion : ofLeBytes (leBytes 4 manifestVersion) = manifestVersion := ofLeBytes_unsigned (by decide)
        have hmagic : manifestMagic.length = 8 := rfl
        unfold manifestHeader at hi hne ⊢
        simp only [List.append_assoc] at hi hne ⊢
        by_cases hi8 : i < 8
        · -- the magic
          rw [List.getElem?_append_left (by omega)] at hne
          rw [List.set_append_left _ _ (by omega)]
          refine decodeManifest_fails (by rw [List.length_set, hmagic]) h4 h4' h8 (.inl (fun heq => hne ?_))
          rw [← heq, List.getElem?_set_self (by omega)]
        · rw [List.getElem?_append_right (by omega), hmagic] at hne
          rw [List.set_append_right _ _ (by omega), hmagic]
          by_cases hi12 : i < 12
          · -- the version
            rw [List.getElem?_append_left (by omega)] at hne
            rw [List.set_append_left _ _ (by omega)]
            refine decodeManifest_fails hmagic (by rw [List.length_set, h4]) h4' h8 (.inr (.inl ?_))
            rw [← hversion]
            exact ofLeBytes_set_ne (by omega) hb hne
          · rw [List.getElem?_append_right (by omega), List.getElem?_append_right (by omega), h4, h4'] at hne
            rw [List.set_append_right _ _ (by omega), List.set_append_right _ _ (by omega), h4, h4']
            by_cases hi24 : i < 24
            · -- the checksum
              rw [List.getElem?_append_left (by omega)] at hne
              rw [List.set_append_left _ _ (by omega)]
              refine decodeManifest_fails hmagic h4 h4' (by rw [List.length_set, h8]) (.inr (.inr (fun heq => ?_)))
              exact ofLeBytes_set_ne (by omega) hb hne (heq.symm.trans hsum.symm)
            · -- the body
              rw [List.getElem?_append_right (by omega), h8] at hne
              rw [List.set_append_right _ _ (by omega), h8]
              refine decodeManifest_fails hmagic h4 h4' h8 (.inr (.inr ?_))
              rw [hsum]
              exact checksum64_set_ne hbytes (by simp only [List.length_append] at hi; omega) hb hne

/-- The sample manifest with its 31st byte replaced. -/
theorem damage_detected_sample : checksum64 [1, 2, 3] ≠ checksum64 [1, 7, 3] ∧
    ∃ bytes e, encodeManifest sampleManifest = .ok bytes ∧ decodeManifest (bytes.set 30 255) = .error e := by
  constructor
  · refine damage_detected.1 [1, 2, 3] [1, 7, 3] (by decide) (by decide) rfl ⟨1, by decide, fun i hi => ?_⟩
    match i with
    | 0 => exact absurd rfl hi
    | 1 => rfl
    | 2 => exact absurd rfl hi
    | i + 3 => exact absurd rfl hi
  · have hok : ∃ bytes, encodeManifest sampleManifest = .ok bytes ∧ 30 < bytes.length ∧ bytes[30]? ≠ some 255 := by
      cases h : encodeManifest sampleManifest with
      | error e =>
        exact absurd ((encodeManifest_fails sampleManifest).1 ⟨e, h⟩) (by decide)
      | ok bytes =>
        have hcheck : (match encodeManifest sampleManifest with
          | .ok bytes => decide (30 < bytes.length ∧ bytes[30]? ≠ some 255)
          | .error _ => false) = true := by decide +kernel
        rw [h] at hcheck
        exact ⟨bytes, rfl, of_decide_eq_true hcheck⟩
    obtain ⟨bytes, hbytes, hlen, hne⟩ := hok
    obtain ⟨e, he⟩ := damage_detected.2 sampleManifest bytes hbytes 30 255 hlen (by decide) hne (by decide)
    exact ⟨bytes, e, hbytes, he⟩

end FastK
