import IpSpace.Proofs.Building
import IpSpace.Proofs.MaskedWords

/-!
# Converting the host of every address

Giving every address of a section the host of zeros, or of ones, is applying a network mask with
"and", or a host mask with "or" (`Host.give_eq`). The bits of such a mask in a segment depend on the
number of host bits there alone (`Host.split_mask`), so what becomes of a section is known segment
by segment, and the general facts about masks say when it is a section
(`Section.exists_converted_iff`).

A conversion tries two shortcuts before it masks the segments. A section within one network that
includes the wanted host is converted to its lowest or highest address, which is right
(`values_hostEnd`). A section that passes the test for the wanted host is returned as it is. That
test looks at the two ends of each segment only, and a segment that begins and ends with the host
may hold other values between them. The shortcut is right exactly if there is no such segment
(`values_eq_give_iff_of_hasHostAt`), and so is the conversion (`convertsHost_iff`); there are
sections for which it is not (`not_convertsHost_ends_only`).
-/

namespace IpSpace

open Digits (Fit)

/-! ## Digits of network and host masks -/

namespace Bits

/-- The bits of a number of ones from some place upwards. -/
theorem two_pow_sub_one_div (a b : Nat) : (2 ^ a - 1) / 2 ^ b = 2 ^ (a - b) - 1 := by
  apply Nat.eq_of_testBit_eq
  intro i
  rw [Nat.testBit_div_two_pow, Nat.testBit_two_pow_sub_one, Nat.testBit_two_pow_sub_one]
  exact decide_eq_decide.2 (by omega)

/-- The bits of a number of ones below some place. -/
theorem two_pow_sub_one_mod (a b : Nat) : (2 ^ a - 1) % 2 ^ b = 2 ^ min a b - 1 := by
  apply Nat.eq_of_testBit_eq
  intro i
  rw [Nat.testBit_mod_two_pow, Nat.testBit_two_pow_sub_one, Nat.testBit_two_pow_sub_one,
    ← Bool.decide_and]
  exact decide_eq_decide.2 (by omega)

theorem two_pow_sub_one_lt {a b : Nat} (h : a ≤ b) : 2 ^ a - 1 < 2 ^ b :=
  Nat.lt_of_lt_of_le (Nat.sub_lt (Nat.two_pow_pos a) Nat.one_pos)
    (Nat.pow_le_pow_right (by decide) h)

end Bits

namespace Digits

variable {width : Nat}

/-- The digits of a number of ones are numbers of ones. -/
theorem split_two_pow_sub_one (width count p : Nat) :
    split width count (2 ^ (width * count - p) - 1)
      = (List.range count).map fun index => 2 ^ (width - (p - index * width)) - 1 := by
  induction count generalizing p with
  | zero => rfl
  | succ count ih =>
      have hfirst :
          min (width * (count + 1) - p - width * count) width = width - (p - 0 * width) := by
        rw [Nat.mul_succ]
        omega
      have hrest : min (width * (count + 1) - p) (width * count) = width * count - (p - width) := by
        rw [Nat.mul_succ]
        omega
      rw [split, ← split_mod (Nat.le_refl count), Bits.two_pow_sub_one_div,
        Bits.two_pow_sub_one_mod, Bits.two_pow_sub_one_mod, hfirst, hrest, ih,
        List.range_succ_eq_map, List.map_cons, List.map_map]
      refine congrArg (_ :: ·) (List.map_congr_left fun index _ => ?_)
      rw [Function.comp_apply, Nat.succ_mul, Nat.add_comm, Nat.sub_sub]

end Digits

namespace Version

variable {version : Version} {p : Nat}

theorem split_hostMask (version : Version) (p : Nat) : version.split (version.hostMask p)
    = (List.range version.segmentCount).map fun index => 2 ^ version.hostBits p index - 1 := by
  rw [hostMask, bitCount_eq, split, Digits.split_two_pow_sub_one]
  rfl

theorem hostMask_lt (version : Version) (p : Nat) : version.hostMask p < 2 ^ version.bitCount :=
  Bits.two_pow_sub_one_lt (Nat.sub_le _ _)

/-- The network mask has all bits set but those of the host mask, in every digit. -/
theorem split_networkMask (version : Version) (p : Nat) : version.split (version.networkMask p)
    = (List.range version.segmentCount).map fun index =>
        2 ^ version.segmentBits - 1 - (2 ^ version.hostBits p index - 1) := by
  have hmax : version.split (2 ^ version.bitCount - 1)
      = (List.range version.segmentCount).map fun _ => 2 ^ version.segmentBits - 1 := by
    rw [bitCount_eq, split]
    have h := Digits.split_two_pow_sub_one version.segmentBits version.segmentCount 0
    simpa only [Nat.sub_zero, Nat.zero_sub] using h
  rw [networkMask, maxValue, ← Bits.xor_max (hostMask_lt version p), split,
    Digits.split_bitwise (fun _ _ _ => Nat.xor_div_two_pow) (fun _ _ _ => Nat.xor_mod_two_pow)]
  show List.zipWith _ (version.split _) (version.split _) = _
  rw [hmax, split_hostMask, List.zipWith_map, List.zipWith_self]
  exact List.map_congr_left fun index _ =>
    Bits.xor_max (Bits.two_pow_sub_one_lt (Section.hostBits_le version p index))

end Version

/-! ## Hosts as masks -/

namespace Host

/-- The address `x` with the host `host` behind its first `p` bits. -/
def give (host : Host) (version : Version) (p x : Nat) : Nat :=
  match host with
  | zeros => x &&& version.networkMask p
  | ones => x ||| version.hostMask p

/-- The operation that gives an address the host. -/
def op : Host → BitOp
  | zeros => .and
  | ones => .or

/-- The mask that gives an address the host. -/
def mask (host : Host) (version : Version) (p : Nat) : Nat :=
  match host with
  | zeros => version.networkMask p
  | ones => version.hostMask p

/-- The part of this mask that falls into a segment of `width` bits with `h` host bits. -/
def segmentMask (host : Host) (width h : Nat) : Nat :=
  match host with
  | zeros => 2 ^ width - 1 - (2 ^ h - 1)
  | ones => 2 ^ h - 1

/-- The values of a segment with `h` host bits, each with the host. -/
def segmentImage (host : Host) (width : Nat) (b : Bounds) (h : Nat) : Set Nat :=
  (host.op.eval · (host.segmentMask width h)) '' b.values

theorem give_eq (host : Host) (version : Version) (p : Nat) :
    host.give version p = (host.op.eval · (host.mask version p)) := by
  funext x
  cases host <;> rfl

theorem mask_le_maxValue (host : Host) (version : Version) (p : Nat) :
    host.mask version p ≤ version.maxValue := by
  cases host with
  | zeros => exact Nat.sub_le _ _
  | ones => exact Nat.le_sub_one_of_lt (version.hostMask_lt p)

theorem segmentMask_lt (host : Host) {width h : Nat} (hh : h ≤ width) :
    host.segmentMask width h < 2 ^ width := by
  cases host with
  | zeros => exact Nat.lt_of_le_of_lt (Nat.sub_le _ _) (Bits.two_pow_sub_one_lt (Nat.le_refl _))
  | ones => exact Bits.two_pow_sub_one_lt hh

/-- The digits of the mask. -/
theorem split_mask (host : Host) (version : Version) (p : Nat) :
    version.split (host.mask version p) = (List.range version.segmentCount).map fun index =>
      host.segmentMask version.segmentBits (version.hostBits p index) := by
  cases host with
  | zeros => exact version.split_networkMask p
  | ones => exact version.split_hostMask p

end Host

namespace Section

variable {s : Section} {host : Host} {p : Nat}

/-- Converting a segment is masking it. -/
theorem convertBounds_eq (width : Nat) (host : Host) (b : Bounds) (h : Nat) :
    convertBounds width host b h = maskBounds width host.op b (host.segmentMask width h) := by
  cases host <;> rfl

/-- What the segments become under the mask that gives the host. -/
theorem maskedSegments_host (hs : s.WellFormed) :
    s.maskedSegments host.op (host.mask s.version p)
      = (s.hosts p).map fun (b, h) => host.segmentImage s.version.segmentBits b h := by
  rw [maskedSegments, maskedSets, host.split_mask, ← hs.length_bounds]
  refine List.ext_getElem (by simp [hosts]) fun index hleft hright => ?_
  simp [hosts, Host.segmentImage]

/-- Whether a conversion can succeed: each segment must stay a range. -/
theorem exists_converted_iff (hs : s.WellFormed) :
    (∃ t : Section, t.WellFormed ∧ t.version = s.version ∧
        t.values = host.give s.version p '' s.values) ↔
      ∀ b h, (b, h) ∈ s.hosts p → (host.segmentImage s.version.segmentBits b h).OrdConnected := by
  rw [host.give_eq, exists_section_iff hs (host.mask_le_maxValue _ _), maskedSegments_host hs,
    List.forall_mem_map]
  exact ⟨fun hall b h hmem => hall (b, h) hmem, fun hall pair hmem => hall pair.1 pair.2 hmem⟩

/-- A section holds the converted addresses if its bounds are the converted segments. -/
theorem values_eq_give (hs : s.WellFormed) {t : Section} (hversion : t.version = s.version)
    (hbounds : t.bounds.map Bounds.values
      = (s.hosts p).map fun (b, h) => host.segmentImage s.version.segmentBits b h) :
    t.values = host.give s.version p '' s.values := by
  rw [host.give_eq]
  exact values_eq_image hs (host.mask_le_maxValue _ _) hversion
    (hbounds.trans (maskedSegments_host hs).symm)

/-! ## Segment by segment -/

/-- What the conversion of a segment reports is right. -/
theorem describes_convertBounds (hs : s.WellFormed) {b : Bounds} {h : Nat}
    (hmem : (b, h) ∈ s.hosts p) : (convertBounds s.version.segmentBits host b h).Describes
      (host.segmentImage s.version.segmentBits b h) := by
  obtain ⟨hb, hh⟩ := of_mem_hosts hs hmem
  rw [convertBounds_eq]
  exact describes_maskBounds host.op hb (host.segmentMask_lt hh)

/-- Without shortcuts, a conversion fails if some segment has holes. -/
theorem convertHost_exact (s : Section) (host : Host) (p : Nat) : s.convertHost host p .exact =
    if (s.hosts p).any fun (b, h) => !(convertBounds s.version.segmentBits host b h).contiguous then
      .error (.hostOfRange host s p)
    else .ok ⟨s.version,
      (s.hosts p).map fun (b, h) => (convertBounds s.version.segmentBits host b h).bounds,
      s.prefixLen⟩ := by
  have hsteps := mapM_check
    (fun (b, h) => !(convertBounds s.version.segmentBits host b h).contiguous)
    (AddressError.hostOfRange host s p)
    (fun (b, h) => (convertBounds s.version.segmentBits host b h).bounds) (s.hosts p)
  unfold convertHost
  simp only [decide_true, Bool.and_true]
  rw [hsteps]
  split <;> rfl

end Section

/-! ## Values with the host -/

namespace Host

/-- The last `h` bits of an address with the host. -/
def low (host : Host) (h : Nat) : Nat :=
  match host with
  | zeros => 0
  | ones => 2 ^ h - 1

/-- The end of a range that `Section.hostEnd` picks. -/
def endOf (host : Host) (b : Bounds) : Nat :=
  match host with
  | zeros => b.lower
  | ones => b.upper

/-- Whether some value of a range has the host. -/
def includedIn (host : Host) (b : Bounds) (h : Nat) : Bool :=
  match host with
  | zeros => b.includesZeroHost h
  | ones => b.includesMaxHost h

variable {width h x : Nat} {b : Bounds}

theorem low_mod (host : Host) (h : Nat) : host.low h % 2 ^ h = host.low h := by
  cases host with
  | zeros => exact Nat.zero_mod _
  | ones => exact Nat.mod_eq_of_lt (Bits.two_pow_sub_one_lt (Nat.le_refl h))

/-- Giving the host to a value keeps its network and replaces the rest. -/
theorem eval_segmentMask (host : Host) (hx : x < 2 ^ width) (hh : h ≤ width) :
    host.op.eval x (host.segmentMask width h) = x / 2 ^ h * 2 ^ h + host.low h := by
  cases host with
  | zeros => exact Bits.and_networkMask hx hh
  | ones => exact Bits.or_hostMask h x

/-- A range stays as it is if all its values have the host. -/
theorem segmentImage_eq_values_iff (host : Host) (hb : b.Within width) (hh : h ≤ width) :
    host.segmentImage width b h = b.values ↔ ∀ x ∈ b.values, x % 2 ^ h = host.low h := by
  constructor
  · intro himage x hx
    rw [← himage] at hx
    obtain ⟨y, hy, rfl⟩ := hx
    show host.op.eval y _ % 2 ^ h = _
    rw [host.eval_segmentMask (hb.lt_of_mem_values hy) hh, Nat.mul_add_mod_self_right, low_mod]
  · intro hall
    have hsame : ∀ x ∈ b.values, host.op.eval x (host.segmentMask width h) = x := by
      intro x hx
      rw [host.eval_segmentMask (hb.lt_of_mem_values hx) hh, ← hall x hx]
      exact Digits.div_mul_add_mod x (2 ^ h)
    rw [segmentImage, Set.image_congr hsame, Set.image_id']

/-- If the least value of a range has the host, the one after it does not. -/
theorem forall_mod_iff (host : Host) (hle : b.lower ≤ b.upper)
    (hlower : b.lower % 2 ^ h = host.low h) :
    (∀ x ∈ b.values, x % 2 ^ h = host.low h) ↔ h = 0 ∨ b.lower = b.upper := by
  constructor
  · intro hall
    rw [or_iff_not_imp_right]
    intro hne
    have hnext := hall (b.lower + 1) ⟨Nat.le_succ _, Nat.lt_of_le_of_ne hle hne⟩
    have hone := Nat.sub_mod_eq_zero_of_mod_eq (hnext.trans hlower.symm)
    rw [Nat.add_sub_cancel_left] at hone
    by_contra hh
    rw [Nat.mod_eq_of_lt (Nat.one_lt_two_pow hh)] at hone
    exact Nat.one_ne_zero hone
  · rintro (rfl | heq) x hx
    · rw [Nat.pow_zero, Nat.mod_one, ← low_mod, Nat.pow_zero, Nat.mod_one]
    · rw [← Nat.le_antisymm hx.1 (heq ▸ hx.2)]
      exact hlower

/-- In a range of one network that includes the host, the value with the host is one of its ends. -/
theorem endOf_mod (host : Host) (hsingle : b.isSingleNetwork h = true)
    (hincluded : host.includedIn b h = true) : host.endOf b % 2 ^ h = host.low h := by
  have hnetwork : b.lower / 2 ^ h = b.upper / 2 ^ h := beq_iff_eq.1 hsingle
  have hupper := Digits.div_mul_add_mod b.upper (2 ^ h)
  have hrest : b.upper % 2 ^ h < 2 ^ h := Nat.mod_lt _ (Nat.two_pow_pos h)
  cases host with
  | zeros =>
      rcases Bool.or_eq_true_iff.1 hincluded with hzero | hnext
      · exact beq_iff_eq.1 hzero
      · -- The next network would begin within the range.
        have hnext := of_decide_eq_true hnext
        rw [Bits.blockEnd, hnetwork] at hnext
        omega
  | ones =>
      have hend : Bits.blockEnd h b.lower ≤ b.upper := of_decide_eq_true hincluded
      rw [Bits.blockEnd, hnetwork] at hend
      show b.upper % 2 ^ h = 2 ^ h - 1
      omega

/-- Such a range becomes this end. -/
theorem segmentImage_of_single (host : Host) (hb : b.Within width) (hh : h ≤ width)
    (hsingle : b.isSingleNetwork h = true) (hincluded : host.includedIn b h = true) :
    host.segmentImage width b h = (Bounds.single (host.endOf b)).values := by
  have hnetwork : b.lower / 2 ^ h = b.upper / 2 ^ h := beq_iff_eq.1 hsingle
  have hsame : ∀ x ∈ b.values, x / 2 ^ h = host.endOf b / 2 ^ h := by
    intro x hx
    have hlower := Nat.div_le_div_right hx.1 (c := 2 ^ h)
    have hupper := Nat.div_le_div_right hx.2 (c := 2 ^ h)
    cases host with
    | zeros => exact Nat.le_antisymm (hnetwork ▸ hupper) hlower
    | ones => exact Nat.le_antisymm hupper (hnetwork ▸ hlower)
  have hconst : ∀ x ∈ b.values, host.op.eval x (host.segmentMask width h) = host.endOf b := by
    intro x hx
    rw [host.eval_segmentMask (hb.lt_of_mem_values hx) hh, hsame x hx,
      ← host.endOf_mod hsingle hincluded]
    exact Digits.div_mul_add_mod (host.endOf b) (2 ^ h)
  rw [segmentImage, Set.image_congr hconst, hb.values_nonempty.image_const]
  exact (Set.Icc_self _).symm

end Host

/-! ## Shortcuts -/

namespace Section

variable {s : Section} {host : Host} {p : Nat}

/-- The test for the host looks at the ends of each segment. -/
theorem hasHostAt_iff (s : Section) (host : Host) (p : Nat) : s.hasHostAt host p = true ↔
    ∀ b h, (b, h) ∈ s.hosts p → b.lower % 2 ^ h = host.low h ∧ b.upper % 2 ^ h = host.low h := by
  have hall : s.hasHostAt host p = (s.hosts p).all fun (b, h) =>
      b.lower % 2 ^ h == host.low h && b.upper % 2 ^ h == host.low h := by
    cases host <;> rfl
  rw [hall, List.all_eq_true]
  constructor
  · intro h b bits hmem
    obtain ⟨hlower, hupper⟩ := Bool.and_eq_true_iff.1 (h (b, bits) hmem)
    exact ⟨beq_iff_eq.1 hlower, beq_iff_eq.1 hupper⟩
  · intro h pair hmem
    obtain ⟨hlower, hupper⟩ := h pair.1 pair.2 hmem
    exact Bool.and_eq_true_iff.2 ⟨beq_iff_eq.2 hlower, beq_iff_eq.2 hupper⟩

theorem includesHostAt_eq (s : Section) (host : Host) (p : Nat) :
    s.includesHostAt host p = s.allHosts p host.includedIn := by
  cases host <;> rfl

theorem hostEnd_eq (s : Section) (host : Host) :
    s.hostEnd host = ⟨s.version, (s.bounds.map host.endOf).map Bounds.single, s.prefixLen⟩ := by
  cases host <;> rfl

theorem map_fst_hosts (s : Section) (p : Nat) : (s.hosts p).map (·.1) = s.bounds :=
  List.ext_getElem (by simp [hosts]) (by simp [hosts])

/-- **The shortcut for one network is right.** -/
theorem values_hostEnd (hs : s.WellFormed) (hsingle : s.isSingleNetworkAt p = true)
    (hincludes : s.includesHostAt host p = true) :
    (s.hostEnd host).values = host.give s.version p '' s.values := by
  rw [includesHostAt_eq] at hincludes
  rw [hostEnd_eq]
  refine values_eq_give hs rfl ?_
  show ((s.bounds.map host.endOf).map Bounds.single).map Bounds.values = _
  rw [← map_fst_hosts s p, List.map_map, List.map_map, List.map_map]
  refine List.map_congr_left fun pair hmem => ?_
  obtain ⟨hb, hh⟩ := of_mem_hosts hs hmem
  exact (host.segmentImage_of_single hb hh (List.all_eq_true.1 hsingle pair hmem)
    (List.all_eq_true.1 hincludes pair hmem)).symm

/-- The addresses of a section all have the host if the values of its segments do. -/
theorem values_eq_give_iff (hs : s.WellFormed) : s.values = host.give s.version p '' s.values ↔
    ∀ b h, (b, h) ∈ s.hosts p → ∀ x ∈ b.values, x % 2 ^ h = host.low h := by
  have hbounds : s.bounds.map Bounds.values = (s.hosts p).map fun (b, _) => b.values := by
    rw [← map_fst_hosts s p, List.map_map]
    rfl
  have hsegments : s.bounds.map Bounds.values
      = (s.hosts p).map (fun (b, h) => host.segmentImage s.version.segmentBits b h) ↔
        ∀ b h, (b, h) ∈ s.hosts p → ∀ x ∈ b.values, x % 2 ^ h = host.low h := by
    rw [hbounds, List.map_inj_left]
    constructor
    · intro hsame b h hmem
      obtain ⟨hb, hh⟩ := of_mem_hosts hs hmem
      exact (host.segmentImage_eq_values_iff hb hh).1 (hsame (b, h) hmem).symm
    · intro hall pair hmem
      obtain ⟨hb, hh⟩ := of_mem_hosts hs hmem
      exact ((host.segmentImage_eq_values_iff hb hh).2 (hall pair.1 pair.2 hmem)).symm
  rw [← hsegments, ← maskedSegments_host hs]
  constructor
  · rw [host.give_eq]
    exact values_of_eq_image hs hs (host.mask_le_maxValue _ _) rfl
  · rw [maskedSegments_host hs]
    exact values_eq_give hs rfl

/-- **The shortcut for a section that passes the test** is right exactly if no segment with host
bits has more than one value. -/
theorem values_eq_give_iff_of_hasHostAt (hs : s.WellFormed) (hhas : s.hasHostAt host p = true) :
    s.values = host.give s.version p '' s.values ↔
      ∀ b h, (b, h) ∈ s.hosts p → h = 0 ∨ b.lower = b.upper := by
  rw [values_eq_give_iff hs]
  refine forall_congr' fun b => forall_congr' fun h => forall_congr' fun hmem => ?_
  obtain ⟨hlower, -⟩ := (s.hasHostAt_iff host p).1 hhas b h hmem
  exact host.forall_mod_iff (of_mem_hosts hs hmem).1.lower_le_upper hlower

/-! ## Conversions -/

/-- The order of attempts, for a prefix length within the address. -/
theorem toHostAt_eq (host : Host) (hp : p ≤ s.bitCount) (strictness : Strictness) :
    s.toHostAt host p strictness =
      if s.hasHostAt host p then .ok s
      else if s.isSingleNetworkAt p && s.includesHostAt host p then .ok (s.hostEnd host)
      else s.convertHost host p strictness := by
  have hcheck : checkPrefixLen s.version p = .ok () := checkPrefixLen_eq_ok_iff.2 hp
  rw [toHostAt, hcheck]
  rfl

/-- A conversion for the prefix length `p` does what it should: it yields the addresses with the
host, under the section's own prefix length, and it fails, as incompatible, exactly if these are not
the addresses of a section, which is if some segment does not stay a range. -/
structure ConvertsHost (s : Section) (host : Host) (p : Nat) : Prop where
  result : ∀ t, s.toHostAt host p .exact = .ok t → t.WellFormed ∧ t.version = s.version ∧
    t.prefixLen = s.prefixLen ∧ t.values = host.give s.version p '' s.values
  failure : ∀ cause, s.toHostAt host p .exact = .error cause →
    cause = .hostOfRange host s p ∧ cause.kind = .incompatible
  fails_iff_no_section : (∃ cause, s.toHostAt host p .exact = .error cause) ↔
    ¬ ∃ t : Section, t.WellFormed ∧ t.version = s.version ∧
      t.values = host.give s.version p '' s.values
  fails_iff_holes : (∃ cause, s.toHostAt host p .exact = .error cause) ↔
    ∃ b h, (b, h) ∈ s.hosts p ∧ ¬ (host.segmentImage s.version.segmentBits b h).OrdConnected

/-- It does if it yields the addresses with the host. -/
theorem convertsHost_of_ok (hs : s.WellFormed) {t : Section}
    (h : s.toHostAt host p .exact = .ok t) (hversion : t.version = s.version)
    (hownLen : t.prefixLen = s.prefixLen) (hvalues : t.values = host.give s.version p '' s.values) :
    s.ConvertsHost host p := by
  have ht : t.WellFormed := wellFormed_of_toHostAt hs h
  have hexists : ∃ t : Section, t.WellFormed ∧ t.version = s.version ∧
      t.values = host.give s.version p '' s.values := ⟨t, ht, hversion, hvalues⟩
  have hsucceeds : ¬ ∃ cause, s.toHostAt host p .exact = .error cause := by
    rintro ⟨cause, hcause⟩
    rw [h] at hcause
    cases hcause
  constructor
  case result =>
    intro r hr
    rw [h] at hr
    cases hr
    exact ⟨ht, hversion, hownLen, hvalues⟩
  case failure => exact fun cause hcause => absurd ⟨cause, hcause⟩ hsucceeds
  case fails_iff_no_section => exact iff_of_false hsucceeds (not_not_intro hexists)
  case fails_iff_holes =>
    refine iff_of_false hsucceeds ?_
    rintro ⟨b, bits, hmem, hholes⟩
    exact hholes ((exists_converted_iff hs).1 hexists b bits hmem)

/-- It does if it fails because of a segment with holes. -/
theorem convertsHost_of_error (hs : s.WellFormed)
    (h : s.toHostAt host p .exact = .error (.hostOfRange host s p)) {b : Bounds} {bits : Nat}
    (hmem : (b, bits) ∈ s.hosts p)
    (hholes : ¬ (host.segmentImage s.version.segmentBits b bits).OrdConnected) :
    s.ConvertsHost host p := by
  have hfails : ∃ cause, s.toHostAt host p .exact = .error cause := ⟨_, h⟩
  constructor
  case result =>
    intro t ht
    rw [h] at ht
    cases ht
  case failure =>
    intro cause hcause
    rw [h] at hcause
    cases hcause
    exact ⟨rfl, rfl⟩
  case fails_iff_no_section =>
    refine iff_of_true hfails fun hexists => ?_
    exact hholes ((exists_converted_iff hs).1 hexists b bits hmem)
  case fails_iff_holes => exact iff_of_true hfails ⟨b, bits, hmem, hholes⟩

/-- Masking the segments does what it should. -/
theorem convertsHost_of_convertHost (hs : s.WellFormed)
    (h : s.toHostAt host p .exact = s.convertHost host p .exact) : s.ConvertsHost host p := by
  rw [convertHost_exact] at h
  split at h
  case isTrue hany =>
    obtain ⟨pair, hmem, hbroken⟩ := List.any_eq_true.1 hany
    refine convertsHost_of_error hs h hmem ?_
    exact (describes_convertBounds hs hmem).not_ordConnected (by simpa using hbroken)
  case isFalse hnone =>
    refine convertsHost_of_ok hs h rfl rfl (values_eq_give hs rfl ?_)
    show ((s.hosts p).map _).map Bounds.values = _
    rw [List.map_map]
    refine List.map_congr_left fun pair hmem => ?_
    have hcontiguous := List.any_eq_false.1 (Bool.eq_false_iff.2 hnone) pair hmem
    exact ((describes_convertBounds hs hmem).eq_Icc (by simpa using hcontiguous)).symm

/-- **A conversion does what it should**, unless the section passes the test for the wanted host
while a segment with host bits has more than one value. -/
theorem convertsHost_iff (hs : s.WellFormed) (hp : p ≤ s.bitCount) : s.ConvertsHost host p ↔
    (s.hasHostAt host p = true → ∀ b h, (b, h) ∈ s.hosts p → h = 0 ∨ b.lower = b.upper) := by
  have hconvert := toHostAt_eq host hp .exact
  constructor
  · intro hright hhas
    rw [if_pos hhas] at hconvert
    obtain ⟨-, -, -, hvalues⟩ := hright.result s hconvert
    exact (values_eq_give_iff_of_hasHostAt hs hhas).1 hvalues
  · intro htest
    split_ifs at hconvert with hhas hnetwork
    · exact convertsHost_of_ok hs hconvert rfl rfl
        ((values_eq_give_iff_of_hasHostAt hs hhas).2 (htest hhas))
    · obtain ⟨hsingle, hincludes⟩ := Bool.and_eq_true_iff.1 hnetwork
      have hend := hostEnd_eq s host
      exact convertsHost_of_ok hs hconvert (by rw [hend]) (by rw [hend])
        (values_hostEnd hs hsingle hincludes)
    · exact convertsHost_of_convertHost hs hconvert

/-- The addresses 10.1-2.x.x lie in two networks of sixteen bits, and become one address each. -/
theorem convertsHost_two_networks :
    Section.ConvertsHost ⟨.v4, [⟨10, 10⟩, ⟨1, 2⟩, ⟨0, 255⟩, ⟨0, 255⟩], some 16⟩ .zeros 16 :=
  (convertsHost_iff ⟨by decide, by decide, by decide, by decide⟩ (by decide)).2
    fun htest => absurd htest (by decide)

/-- Both ends of 10.0.0.0-16 have a host of zeros behind 28 bits, so the section is returned with
the addresses between them. -/
theorem not_convertsHost_ends_only :
    ¬ Section.ConvertsHost ⟨.v4, [⟨10, 10⟩, ⟨0, 0⟩, ⟨0, 0⟩, ⟨0, 16⟩], none⟩ .zeros 28 := by
  intro hright
  obtain ⟨-, -, -, hvalues⟩ := hright.result _ rfl
  have hbetween : 0x0A000001 ∈
      Section.values ⟨.v4, [⟨10, 10⟩, ⟨0, 0⟩, ⟨0, 0⟩, ⟨0, 16⟩], none⟩ := by
    refine ⟨by decide, ?_⟩
    exact .cons ⟨by decide, by decide⟩ (.cons ⟨by decide, by decide⟩
      (.cons ⟨by decide, by decide⟩ (.cons ⟨by decide, by decide⟩ .nil)))
  rw [hvalues] at hbetween
  obtain ⟨x, -, hx⟩ := hbetween
  -- No address with a host of zeros ends in a one.
  have hlow := congrArg (· % 2 ^ 4) (show x &&& Version.v4.networkMask 28 = 0x0A000001 from hx)
  simp only [Nat.and_mod_two_pow] at hlow
  rw [show Version.v4.networkMask 28 % 2 ^ 4 = 0 by decide, Nat.and_zero] at hlow
  exact absurd hlow (by decide)

end Section

end IpSpace
