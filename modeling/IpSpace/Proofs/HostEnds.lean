import IpSpace.Proofs.NetworkTests

/-!
# Converting the ends of every segment

A conversion of the host that maps the two ends of every segment and takes everything between them
never fails. It has three ways to its result. Two of them are the shortcuts of every conversion, and
the third masks the segments, where what is reported for a segment depends on whether its values
stay a range. All three come to the same: both ends of every segment are given the host
(`Section.toHostAt_endsOnly`).

For the shortcuts this holds because each end they keep is in the network of the end it stands for,
and has the host (`Host.eval_segmentMask_eq`). For a masked segment it holds because giving the host
keeps the order, so the least and the greatest value of a range go to the least and the greatest of
what it becomes (`Masked.Reports.bounds_eq_of_monotoneOn`).

The ends of all segments make up the lowest and the highest address, so these two are given the host
as well (`Section.give_join`). Given a host of zeros, the lowest address is that of the section
widened to whole networks; given a host of ones, the highest is.
-/

namespace IpSpace

open Digits (Fit)

/-! ## Segments -/

/-- Of a map that keeps the order, a report has the values at the two ends, with holes or
without. -/
theorem Masked.Reports.bounds_eq_of_monotoneOn {m : Masked} {f : Nat → Nat} {lower upper : Nat}
    (h : m.Reports f lower upper) (hle : lower ≤ upper) (hf : MonotoneOn f (Set.Icc lower upper)) :
    m.bounds = ⟨f lower, f upper⟩ := by
  have hends : m.lower = f lower ∧ m.upper = f upper := by
    cases hc : m.contiguous with
    | false => exact h.ends hc
    | true => exact ⟨(h.isLeast hc).unique (hf.map_isLeast (isLeast_Icc hle)),
        (h.isGreatest hc).unique (hf.map_isGreatest (isGreatest_Icc hle))⟩
  rw [Masked.bounds, hends.1, hends.2]

/-- What is reported of a segment under a mask is the whole truth. -/
theorem Section.reports_maskBounds {op : BitOp} {b : Bounds} {width mask : Nat}
    (hb : b.Within width) (hmask : mask < 2 ^ width) :
    (maskBounds width op b mask).Reports (op.eval · mask) b.lower b.upper := by
  refine (describes_maskBounds op hb hmask).reports hb.lower_le_upper ?_
  cases op with
  | and => exact bounds_maskRange_of_holes
  | or => exact bounds_orRange_of_holes

namespace Host

variable {host : Host} {width h x y : Nat} {b : Bounds}

/-- A segment with `h` host bits, with both its ends given the host. -/
def segmentEnds (host : Host) (width : Nat) (b : Bounds) (h : Nat) : Bounds :=
  ⟨host.op.eval b.lower (host.segmentMask width h), host.op.eval b.upper (host.segmentMask width h)⟩

/-- Giving the host to a value leads to the value of its network that has the host. -/
theorem eval_segmentMask_eq (hx : x < 2 ^ width) (hh : h ≤ width) (hnetwork : x / 2 ^ h = y / 2 ^ h)
    (hhost : y % 2 ^ h = host.low h) : host.op.eval x (host.segmentMask width h) = y := by
  rw [host.eval_segmentMask hx hh, hnetwork, ← hhost]
  exact Digits.div_mul_add_mod y (2 ^ h)

/-- Giving the host to values keeps their order. -/
theorem monotoneOn_eval_segmentMask (host : Host) (hb : b.Within width) (hh : h ≤ width) :
    MonotoneOn (host.op.eval · (host.segmentMask width h)) (Set.Icc b.lower b.upper) := by
  intro x hx y hy hxy
  show host.op.eval x _ ≤ host.op.eval y _
  rw [host.eval_segmentMask (hb.lt_of_mem_values hx) hh,
    host.eval_segmentMask (hb.lt_of_mem_values hy) hh]
  exact Nat.add_le_add_right (Nat.mul_le_mul_right _ (Nat.div_le_div_right hxy)) _

/-- **A converted segment goes from end to end**, whether or not it stays a range. -/
theorem bounds_convertBounds (host : Host) (hb : b.Within width) (hh : h ≤ width) :
    (Section.convertBounds width host b h).bounds = host.segmentEnds width b h := by
  rw [Section.convertBounds_eq]
  exact (Section.reports_maskBounds hb (host.segmentMask_lt hh)).bounds_eq_of_monotoneOn
    hb.lower_le_upper (host.monotoneOn_eval_segmentMask hb hh)

/-- A segment whose ends have the host is left as it is. -/
theorem segmentEnds_eq_self (hb : b.Within width) (hh : h ≤ width)
    (hlower : b.lower % 2 ^ h = host.low h) (hupper : b.upper % 2 ^ h = host.low h) :
    host.segmentEnds width b h = b := by
  rw [segmentEnds, eval_segmentMask_eq (hb.lt_of_mem_values hb.lower_mem) hh rfl hlower,
    eval_segmentMask_eq hb.upper_lt hh rfl hupper]

/-- Both ends of a segment in one network go to the one of them that has the host. -/
theorem segmentEnds_of_single (hb : b.Within width) (hh : h ≤ width)
    (hsingle : b.isSingleNetwork h = true) (hincluded : host.includedIn b h = true) :
    host.segmentEnds width b h = Bounds.single (host.endOf b) := by
  have hnetwork : b.lower / 2 ^ h = b.upper / 2 ^ h := beq_iff_eq.1 hsingle
  have hends : b.lower / 2 ^ h = host.endOf b / 2 ^ h ∧ b.upper / 2 ^ h = host.endOf b / 2 ^ h := by
    cases host with
    | zeros => exact ⟨rfl, hnetwork.symm⟩
    | ones => exact ⟨hnetwork, rfl⟩
  have hhost := host.endOf_mod hsingle hincluded
  rw [segmentEnds, eval_segmentMask_eq (hb.lt_of_mem_values hb.lower_mem) hh hends.1 hhost,
    eval_segmentMask_eq hb.upper_lt hh hends.2 hhost]
  rfl

end Host

/-! ## Sections -/

namespace Section

variable {s : Section} {host : Host} {p : Nat}

/-- The section with both ends of every segment given the host. -/
def hostEnds (s : Section) (host : Host) (p : Nat) : Section :=
  { s with bounds := (s.hosts p).map fun (b, h) => host.segmentEnds s.version.segmentBits b h }

/-- A section with these bounds is that one, which is shown segment by segment. -/
theorem eq_hostEnds (hs : s.WellFormed) {f : Bounds → Nat → Bounds}
    (hf : ∀ b h, (b, h) ∈ s.hosts p → b.Within s.version.segmentBits → h ≤ s.version.segmentBits →
      host.segmentEnds s.version.segmentBits b h = f b h) :
    { s with bounds := (s.hosts p).map fun (b, h) => f b h } = s.hostEnds host p := by
  rw [hostEnds]
  congr 1
  refine List.map_congr_left fun pair hmem => ?_
  obtain ⟨hb, hh⟩ := of_mem_hosts hs hmem
  exact (hf pair.1 pair.2 hmem hb hh).symm

/-- The section that passes the test for the host is left as it is. -/
theorem hostEnds_of_hasHostAt (hs : s.WellFormed) (hhas : s.hasHostAt host p = true) :
    s.hostEnds host p = s := by
  rw [← eq_hostEnds hs (f := fun b _ => b) fun b h hmem hb hh =>
    Host.segmentEnds_eq_self hb hh ((hasHostAt_iff s host p).1 hhas b h hmem).1
      ((hasHostAt_iff s host p).1 hhas b h hmem).2, map_fst_hosts]

/-- The section in one network that includes the host becomes the address with the host. -/
theorem hostEnds_of_single (hs : s.WellFormed) (hsingle : s.isSingleNetworkAt p = true)
    (hincludes : s.includesHostAt host p = true) : s.hostEnds host p = s.hostEnd host := by
  rw [includesHostAt_eq] at hincludes
  rw [hostEnd_eq, ← eq_hostEnds hs (f := fun b _ => Bounds.single (host.endOf b))
    fun b h hmem hb hh => Host.segmentEnds_of_single hb hh (List.all_eq_true.1 hsingle (b, h) hmem)
      (List.all_eq_true.1 hincludes (b, h) hmem), ← map_fst_hosts s p, List.map_map, List.map_map]
  rfl

/-- Masking the segments without asking whether they stay ranges does not fail. -/
theorem convertHost_endsOnly (hs : s.WellFormed) (host : Host) (p : Nat) :
    s.convertHost host p .endsOnly = .ok (s.hostEnds host p) := by
  have hsteps : (s.hosts p).mapM (fun (b, h) => (Except.ok
      (convertBounds s.version.segmentBits host b h).bounds : Except AddressError Bounds))
      = .ok ((s.hosts p).map fun (b, h) => (convertBounds s.version.segmentBits host b h).bounds) :=
    List.mapM_pure ..
  rw [← eq_hostEnds hs fun b h _ hb hh => (host.bounds_convertBounds hb hh).symm]
  unfold convertHost
  simp only [reduceCtorEq, decide_false, Bool.and_false, Bool.false_eq_true, if_false]
  rw [hsteps]
  rfl

/-- **The three ways of a conversion of the ends come to the same.** -/
theorem toHostAt_endsOnly (hs : s.WellFormed) (host : Host) (hp : p ≤ s.bitCount) :
    s.toHostAt host p .endsOnly = .ok (s.hostEnds host p) := by
  rw [toHostAt_eq host hp]
  split_ifs with hhas hnetwork
  · rw [hostEnds_of_hasHostAt hs hhas]
  · obtain ⟨hsingle, hincludes⟩ := Bool.and_eq_true_iff.1 hnetwork
    rw [hostEnds_of_single hs hsingle hincludes]
  · exact convertHost_endsOnly hs host p

/-! ## The lowest and the highest address -/

/-- Giving the host to an address made up of a value from each segment gives it to these values. -/
theorem give_join (hs : s.WellFormed) (host : Host) (p : Nat) {f : Bounds → Nat}
    (hf : ∀ b ∈ s.bounds, f b ∈ b) :
    host.give s.version p (s.version.join (s.bounds.map f))
      = s.version.join ((s.hosts p).map fun (b, h) =>
          host.op.eval (f b) (host.segmentMask s.version.segmentBits h)) := by
  have hlen : (s.bounds.map f).length = s.version.segmentCount := by
    rw [List.length_map, hs.length_bounds]
  have hfit : Fit s.version.segmentBits (s.bounds.map f) :=
    List.forall_mem_map.2 fun b hb => (hs.within b hb).lt_of_mem_values (hf b hb)
  have hgiven : s.version.split (host.give s.version p (s.version.join (s.bounds.map f)))
      = (s.hosts p).map fun (b, h) =>
          host.op.eval (f b) (host.segmentMask s.version.segmentBits h) := by
    rw [host.give_eq, Version.split, host.op.split_eval]
    show List.zipWith _ (s.version.split _) (s.version.split _) = _
    rw [Version.split_join hlen hfit, host.split_mask]
    exact List.ext_getElem (by simp [hosts, hs.length_bounds]) (by simp [hosts])
  rw [← hgiven, Version.join_split (host.give_le_maxValue (Version.join_le_maxValue hlen hfit))]

theorem lowerValue_hostEnds (hs : s.WellFormed) (host : Host) (p : Nat) :
    (s.hostEnds host p).lowerValue = host.give s.version p s.lowerValue := by
  rw [lowerValue, lowerValue, give_join hs host p fun b hb => (hs.within b hb).lower_mem, hostEnds,
    List.map_map]
  rfl

theorem upperValue_hostEnds (hs : s.WellFormed) (host : Host) (p : Nat) :
    (s.hostEnds host p).upperValue = host.give s.version p s.upperValue := by
  rw [upperValue, upperValue, give_join hs host p fun b hb => (hs.within b hb).upper_mem, hostEnds,
    List.map_map]
  rfl

/-- Given a host of zeros, a section begins as it does when widened to whole networks. -/
theorem lowerValue_blockAt (hs : s.WellFormed) (p : Nat) :
    (s.blockAt p).lowerValue = (s.hostEnds .zeros p).lowerValue := by
  refine congrArg s.version.join ?_
  show ((s.hosts p).map _).map _ = ((s.hosts p).map _).map _
  rw [List.map_map, List.map_map]
  refine List.map_congr_left fun pair hmem => ?_
  obtain ⟨hb, hh⟩ := of_mem_hosts hs hmem
  exact (Bits.and_networkMask (hb.lt_of_mem_values hb.lower_mem) hh).symm

/-- Given a host of ones, it ends as it does when widened. -/
theorem upperValue_blockAt (s : Section) (p : Nat) :
    (s.blockAt p).upperValue = (s.hostEnds .ones p).upperValue := by
  refine congrArg s.version.join ?_
  show ((s.hosts p).map _).map _ = ((s.hosts p).map _).map _
  rw [List.map_map, List.map_map]
  exact List.map_congr_left fun pair _ => (Bits.or_hostMask pair.2 pair.1.upper).symm

/-- The section `t` is one like `s`, of its version and under its prefix length, whose lowest
address is `lower` and whose highest is `upper`. -/
structure MovedTo (s : Section) (lower upper : Nat) (t : Section) : Prop where
  wellFormed : t.WellFormed
  version_eq : t.version = s.version
  prefixLen_eq : t.prefixLen = s.prefixLen
  lowerValue_eq : t.lowerValue = lower
  upperValue_eq : t.upperValue = upper

theorem movedTo_hostEnds (hs : s.WellFormed) (host : Host) (hp : p ≤ s.bitCount) :
    s.MovedTo (host.give s.version p s.lowerValue) (host.give s.version p s.upperValue)
      (s.hostEnds host p) where
  wellFormed := wellFormed_of_toHostAt hs (toHostAt_endsOnly hs host hp)
  version_eq := rfl
  prefixLen_eq := rfl
  lowerValue_eq := lowerValue_hostEnds hs host p
  upperValue_eq := upperValue_hostEnds hs host p

/-- **Conversions of the ends never fail**, for a length within the address. They keep the prefix
length of the section, and they give the host to its lowest and to its highest address. So the one
to a host of zeros begins where the section widened to whole networks begins, and the one to a host
of ones ends where that ends. -/
theorem toHostAt_endsOnly_exact (s : Section) (hs : s.WellFormed) (p : Nat) (hp : p ≤ s.bitCount) :
    ∃ zeros ones block : Section, s.toHostAt .zeros p .endsOnly = .ok zeros ∧
      s.toHostAt .ones p .endsOnly = .ok ones ∧ s.toBlockAt p = .ok block ∧
      s.MovedTo (s.lowerValue &&& s.version.networkMask p)
        (s.upperValue &&& s.version.networkMask p) zeros ∧
      s.MovedTo (s.lowerValue ||| s.version.hostMask p)
        (s.upperValue ||| s.version.hostMask p) ones ∧
      zeros.lowerValue = block.lowerValue ∧ ones.upperValue = block.upperValue :=
  ⟨s.hostEnds .zeros p, s.hostEnds .ones p, s.blockAt p, toHostAt_endsOnly hs .zeros hp,
    toHostAt_endsOnly hs .ones hp, toBlockAt_eq_ok_iff.2 ⟨hp, rfl⟩, movedTo_hostEnds hs .zeros hp,
    movedTo_hostEnds hs .ones hp, (lowerValue_blockAt hs p).symm, (upperValue_blockAt s p).symm⟩

/-- Given a host of zeros behind twenty bits, the addresses 10.1.8-40.5-9 would be those of 10.1.0,
10.1.16 and 10.1.32, which are not a section. Their ends go to 10.1.0.0 and 10.1.32.0, and the
result is 10.1.0-32.0. -/
theorem toHostAt_endsOnly_exact_holes :
    let s : Section := ⟨.v4, [⟨10, 10⟩, ⟨1, 1⟩, ⟨8, 40⟩, ⟨5, 9⟩], some 24⟩
    s.WellFormed ∧ 20 ≤ s.bitCount ∧
      s.toHostAt .zeros 20 .exact = .error (.hostOfRange .zeros s 20) ∧
      ∃ zeros, s.toHostAt .zeros 20 .endsOnly = .ok zeros ∧
        s.MovedTo 0x0A010000 0x0A012000 zeros := by
  intro s
  have hs : s.WellFormed := ⟨by decide, by decide, by decide, by decide⟩
  have hp : 20 ≤ s.bitCount := by decide
  obtain ⟨zeros, -, -, hzeros, -, -, hmoved, -⟩ := toHostAt_endsOnly_exact s hs 20 hp
  have hlower : s.lowerValue &&& s.version.networkMask 20 = 0x0A010000 := by decide
  have hupper : s.upperValue &&& s.version.networkMask 20 = 0x0A012000 := by decide
  rw [hlower, hupper] at hmoved
  exact ⟨hs, hp, by decide, zeros, hzeros, hmoved⟩

end Section

end IpSpace
