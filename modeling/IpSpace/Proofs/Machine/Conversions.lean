import IpSpace.Proofs.Machine.Building

/-!
# Host conversions, blocks, masking and reversal on the machine

Every operation that maps the addresses of a section looks up masks for the part of a prefix length
that falls into a segment, works on the segments one after another, and puts the results together.
The look-ups succeed as in the tests (`atPrefix?_eq`), and what is put together is a section
whenever there is no error.

A segment in front of the boundary is left as it is; the library converts it with no host bits,
which changes nothing (`convertBounds_zero`).
-/

namespace IpSpace

open AddressError Section

namespace Machine

variable {s mask : Section} {b : Bounds} {bits h p : Nat}

/-! ## Blocks -/

/-- A segment widened to whole networks. -/
def blockBounds? (bits : Nat) (b : Bounds) (p : Nat) : Option Bounds := do
  return ⟨b.lower &&& (← segmentNetworkMask? bits p), b.upper ||| (← segmentHostMask? bits p)⟩

/-- The section widened to whole networks of the given prefix length, unless it is made of them and
has that prefix length. -/
def blockAt? (s : Section) (p : Nat) : Option Section := do
  if ← both? (some (s.prefixLen == some p)) (isBlockAt? s p) then return s
  fromBounds? s.version (← s.bounds.zipIdx.mapM (atPrefix? s.version p some blockBounds?)) (some p)

/-- `blockAt?`, for a prefix length within the address. -/
def toBlockAt? (s : Section) (p : Nat) : Option (Except AddressError Section) :=
  after? (checkPrefixLen s.version p) fun _ => do return .ok (← blockAt? s p)

/-- The section widened to whole networks of its own prefix length. -/
def toBlock? (s : Section) : Option Section :=
  match s.prefixLen with
  | some p => blockAt? s p
  | none => some s

/-- Clearing and setting the host bits of the ends leads to the ends of their networks. -/
theorem blockBounds?_eq (hbits : bits = 8 ∨ bits = 16) (hb : b.Within bits) (hh : h ≤ bits) :
    blockBounds? bits b (bits - h) = some (b.block h) := by
  have hlower : b.lower < 2 ^ bits := Nat.lt_of_le_of_lt hb.lower_le_upper hb.upper_lt
  rw [blockBounds?, bind_eq (segmentNetworkMask?_eq hbits hh),
    bind_eq (segmentHostMask?_eq hbits hh), Bits.and_networkMask hlower hh, Bits.or_hostMask]
  rfl

section Blocks

variable (hs : s.WellFormed)

include hs

/-- **Widening to whole networks never stops for a prefix length within the address.** The section
itself is what comes out where nothing has to be widened. -/
theorem blockAt?_eq (hp : p ≤ s.bitCount) : blockAt? s p = some (s.blockAt p) := by
  have hsteps : ∀ place ∈ s.bounds.zipIdx, atPrefix? s.version p some blockBounds? place
      = some (place.1.block (s.version.hostBits p place.2)) :=
    atPrefix?_eq_of_mem (g := fun b h => b.block h) hs
      (fun b _ => by simp [Bounds.block, Bits.blockStart, Bits.blockEnd])
      (fun b hb h hh => blockBounds?_eq (segmentBits_cases s.version) hb hh) p
  have hbounds : s.bounds.zipIdx.mapM (atPrefix? s.version p some blockBounds?)
      = some (s.blockAt p).bounds := by
    rw [mapM_eq_some hsteps, blockAt, hosts_eq, List.map_map]
    rfl
  have hunchanged := both?_eq (x := some (s.prefixLen == some p)) rfl (isBlockAt?_eq hs p)
  rw [blockAt?, bind_eq hunchanged, bind_eq hbounds]
  by_cases hshortcut : (s.prefixLen == some p && s.isBlockAt p) = true
  · -- Widening does not change the segments.
    obtain ⟨hown, hblock⟩ := Bool.and_eq_true_iff.1 hshortcut
    have hsame : s.blockAt p = s := by
      show Section.mk s.version (s.blockAt p).bounds (some p) = s
      rw [isBlockAt_iff_blockAt.1 hblock, ← beq_iff_eq.1 hown]
    rw [if_pos hshortcut, hsame]
    rfl
  · rw [if_neg hshortcut]
    exact fromBounds?_eq (wellFormed_blockAt hs hp)

/-- A prefix length past the address is an error, and no look-up is made for it. -/
theorem toBlockAt?_eq (p : Nat) : toBlockAt? s p = some (s.toBlockAt p) := by
  rw [toBlockAt?, Section.toBlockAt]
  apply after?_eq
  intro _ hcheck
  rw [bind_eq (blockAt?_eq hs (checkPrefixLen_eq_ok_iff.1 hcheck))]
  rfl

/-- The own prefix length is within the address. -/
theorem toBlock?_eq : toBlock? s = some s.toBlock := by
  rw [toBlock?, Section.toBlock]
  rcases hp : s.prefixLen with - | p
  · rfl
  · exact blockAt?_eq hs (hs.prefixLen_le p hp)

end Blocks

/-! ## Hosts -/

/-- Whether a section passes the test for the given host. -/
def hasHostAt? (s : Section) : Host → Nat → Option Bool
  | .zeros => isZeroHostAt? s
  | .ones => isMaxHostAt? s

/-- Whether some address has the given host. -/
def includesHostAt? (s : Section) : Host → Nat → Option Bool
  | .zeros => includesZeroHostAt? s
  | .ones => includesMaxHostAt? s

/-- The lowest or the highest address. -/
def hostEnd? (s : Section) : Host → Option Section
  | .zeros => lower? s
  | .ones => upper? s

/-- The values of a segment with the given host. -/
def hostBounds? (host : Host) (bits : Nat) (b : Bounds) (p : Nat) : Option Masked :=
  match host with
  | .zeros => do maskRange? b.lower b.upper (← segmentNetworkMask? bits p) (2 ^ bits - 1)
  | .ones => do orRange? b.lower b.upper (← segmentHostMask? bits p) (2 ^ bits - 1)

/-- A segment with the given host, or the error that quotes the section. -/
def convertBounds? (s : Section) (host : Host) (p : Nat) (strictness : Strictness) (bits : Nat)
    (b : Bounds) (own : Nat) : Option (Except AddressError Bounds) := do
  let masked ← hostBounds? host bits b own
  if !masked.contiguous && strictness = .exact then
    let _ ← text? s
    return .error (.hostOfRange host s p)
  return .ok masked.bounds

/-- Gives every address the host `host`, segment by segment. -/
def convertHost? (s : Section) (host : Host) (p : Nat) (strictness : Strictness) :
    Option (Except AddressError Section) := do
  let steps := atPrefix? s.version p (fun b => some (.ok b)) (convertBounds? s host p strictness)
  after? (← traverse? steps s.bounds.zipIdx) fun bounds => do
    return .ok (← fromBounds? s.version bounds s.prefixLen)

/-- Gives every address the host `host` behind its first `p` bits. -/
def toHostAt? (s : Section) (host : Host) (p : Nat) (strictness : Strictness) :
    Option (Except AddressError Section) :=
  after? (checkPrefixLen s.version p) fun _ => do
    if ← hasHostAt? s host p then return .ok s
    if ← both? (isSingleNetworkAt? s p) (includesHostAt? s host p) then
      return .ok (← hostEnd? s host)
    convertHost? s host p strictness

/-- Gives every address the host `host` for the section's own prefix length. -/
def toHost? (s : Section) (host : Host) : Option (Except AddressError Section) :=
  match s.prefixLen with
  | some p => toHostAt? s host p .exact
  | none =>
    let digit := match host with
      | .zeros => 0
      | .ones => s.version.segmentMax
    do
      let bounds := List.replicate s.segmentCount (Bounds.single digit)
      return .ok (← fromBounds? s.version bounds none)

/-- A segment without host bits is converted to itself. -/
theorem convertBounds_zero (host : Host) (hb : b.Within bits) :
    convertBounds bits host b 0 = Masked.exact b.lower b.upper := by
  have hand : ∀ x < 2 ^ bits, x &&& (2 ^ bits - 1) = x := by
    intro x hx
    rw [Nat.and_two_pow_sub_one_eq_mod, Nat.mod_eq_of_lt hx]
  have hxor : ∀ x < 2 ^ bits, (2 ^ bits - 1) ^^^ x < 2 ^ bits := fun x hx =>
    Nat.xor_lt_two_pow (Bits.two_pow_sub_one_lt (Nat.le_refl bits)) hx
  have hlower : b.lower < 2 ^ bits := Nat.lt_of_le_of_lt hb.lower_le_upper hb.upper_lt
  cases host with
  | zeros =>
      show maskRange b.lower b.upper (2 ^ bits - 1 - (2 ^ 0 - 1)) (2 ^ bits - 1) = _
      rw [Nat.pow_zero, Nat.sub_self, Nat.sub_zero, maskRange, if_pos (Or.inr (Or.inr rfl)),
        hand _ hlower, hand _ hb.upper_lt]
  | ones =>
      show orRange b.lower b.upper (2 ^ 0 - 1) (2 ^ bits - 1) = _
      rw [Nat.pow_zero, Nat.sub_self, orRange, Nat.xor_zero, maskRange,
        if_pos (Or.inr (Or.inr rfl)), hand _ (hxor _ hlower), hand _ (hxor _ hb.upper_lt)]
      -- The complement of a complement is the end itself.
      show Masked.exact ((2 ^ bits - 1) ^^^ ((2 ^ bits - 1) ^^^ b.lower))
        ((2 ^ bits - 1) ^^^ ((2 ^ bits - 1) ^^^ b.upper)) = _
      rw [← Nat.xor_assoc, ← Nat.xor_assoc, Nat.xor_self, Nat.zero_xor, Nat.zero_xor]

/-- Clearing the host bits masks a segment with its network mask, and setting them with its host
mask. -/
theorem hostBounds?_eq (host : Host) (hbits : bits = 8 ∨ bits = 16) (hb : b.Within bits)
    (hh : h ≤ bits) :
    hostBounds? host bits b (bits - h) = some (convertBounds bits host b h) := by
  have hroom : 2 ^ bits ≤ 2 ^ 32 := Nat.pow_le_pow_right (by decide) (by omega)
  cases host with
  | zeros =>
      show (segmentNetworkMask? bits (bits - h) >>= _) = _
      rw [bind_eq (segmentNetworkMask?_eq hbits hh)]
      exact maskRange?_eq hb.lower_le_upper (Nat.lt_of_lt_of_le hb.upper_lt hroom) _ _
  | ones =>
      show (segmentHostMask? bits (bits - h) >>= _) = _
      rw [bind_eq (segmentHostMask?_eq hbits hh)]
      exact orRange?_eq (by omega) hb.lower_le_upper hb.upper_lt _

section Hosts

variable (hs : s.WellFormed)

include hs

/-- The test for either host succeeds. -/
theorem hasHostAt?_eq (host : Host) (p : Nat) :
    hasHostAt? s host p = some (s.hasHostAt host p) := by
  cases host with
  | zeros => exact isZeroHostAt?_eq hs p
  | ones => exact isMaxHostAt?_eq hs p

theorem includesHostAt?_eq (host : Host) (p : Nat) :
    includesHostAt? s host p = some (s.includesHostAt host p) := by
  cases host with
  | zeros => exact includesZeroHostAt?_eq hs p
  | ones => exact includesMaxHostAt?_eq hs p

/-- The end with either host is put together. -/
theorem hostEnd?_eq (host : Host) : hostEnd? s host = some (s.hostEnd host) := by
  cases host with
  | zeros => exact lower?_eq hs
  | ones => exact upper?_eq hs

/-- **The loop over the segments converts as the library does.** Up to the first segment that fails
there is a look-up for each, and what is put together behind the loop is a section. -/
theorem convertHost?_eq (host : Host) (p : Nat) (strictness : Strictness) :
    convertHost? s host p strictness = some (s.convertHost host p strictness) := by
  let convert (b : Bounds) (h : Nat) : Except AddressError Bounds :=
    if !(convertBounds s.version.segmentBits host b h).contiguous && strictness = .exact then
      .error (.hostOfRange host s p)
    else .ok (convertBounds s.version.segmentBits host b h).bounds
  have hsteps : ∀ place ∈ s.bounds.zipIdx,
      atPrefix? s.version p (fun b => some (.ok b)) (convertBounds? s host p strictness) place
        = some (convert place.1 (s.version.hostBits p place.2)) :=
    atPrefix?_eq_of_mem hs
      (fun b hb => by
        simp only [convert, convertBounds_zero host hb]
        rfl)
      (fun b hb h hh => by
        rw [convertBounds?, bind_eq (hostBounds?_eq host (segmentBits_cases s.version) hb hh),
          bind_eq (text?_eq hs)]
        simp only [convert]
        split <;> rfl) p
  rw [convertHost?, bind_eq (traverse?_eq hsteps)]
  have hmap : s.bounds.zipIdx.mapM (fun place => convert place.1 (s.version.hostBits p place.2))
      = (s.hosts p).mapM fun place => convert place.1 place.2 := by
    rw [hosts_eq, List.mapM_map]
    rfl
  have hconvert : s.convertHost host p strictness
      = (s.hosts p).mapM (fun place => convert place.1 place.2) >>= fun bounds =>
        .ok { s with bounds } := rfl
  rw [hmap, hconvert]
  apply after?_eq
  intro bounds hbounds
  -- The segments are there only if all conversions were exact, and then they make a section.
  have hwf : Section.WellFormed { s with bounds } := by
    apply wellFormed_of_convertHost hs
    rw [hconvert, hbounds]
    rfl
  rw [bind_eq (fromBounds?_eq hwf)]
  rfl

/-- **A host conversion never stops, whatever prefix length is asked for.** -/
theorem toHostAt?_eq (host : Host) (p : Nat) (strictness : Strictness) :
    toHostAt? s host p strictness = some (s.toHostAt host p strictness) := by
  rw [toHostAt?, Section.toHostAt]
  apply after?_eq
  intro _ _
  rw [bind_eq (hasHostAt?_eq hs host p),
    bind_eq (both?_eq (isSingleNetworkAt?_eq hs p) (includesHostAt?_eq hs host p)),
    bind_eq (hostEnd?_eq hs host), convertHost?_eq hs]
  cases s.hasHostAt host p
  · cases s.isSingleNetworkAt p && s.includesHostAt host p
    · rfl
    · rfl
  · rfl

/-- Without a prefix length all segments are zeros, or all are ones, and they are put together. -/
theorem toHost?_eq (host : Host) : toHost? s host = some (s.toHost host) := by
  rcases hp : s.prefixLen with - | p
  · have hwf : ∀ t, s.toHost host = .ok t → t.WellFormed := fun _ => wellFormed_of_toHost hs
    simp only [Section.toHost, hp] at hwf ⊢
    have hbuild := fromBounds?_eq (hwf _ rfl)
    simp only [toHost?, hp]
    rw [ofDigits, List.map_replicate] at hbuild ⊢
    exact bind_eq hbuild
  · simp only [toHost?, Section.toHost, hp]
    exact toHostAt?_eq hs host p .exact

end Hosts

/-! ## Masks -/

/-- The values of a segment after a bitwise operation with `mask`. -/
def maskBounds? (bits : Nat) (op : BitOp) (b : Bounds) (mask : Nat) : Option Masked :=
  match op with
  | .and => maskRange? b.lower b.upper mask (2 ^ bits - 1)
  | .or => orRange? b.lower b.upper mask (2 ^ bits - 1)

/-- A segment, its partner in the mask and their number, with the operation applied to the
segment. -/
def maskSegment? (bits : Nat) (op : BitOp) :
    (Bounds × Bounds) × Nat → Option (Except AddressError Bounds)
  | ((b, m), index) => do
    let masked ← maskBounds? bits op b m.lower
    if masked.contiguous then return .ok masked.bounds
    return .error (.maskOfRange op index b m.lower)

/-- Applies a bitwise operation with the lowest address of `mask` to every address. -/
def applyMask? (s : Section) (op : BitOp) (mask : Section) : Option (Except AddressError Section) :=
  after? (checkSameVersion s.version mask.version) fun _ => do
    let masked ← traverse? (maskSegment? s.version.segmentBits op) (s.bounds.zip mask.bounds).zipIdx
    after? masked fun bounds => do return .ok (← fromBounds? s.version bounds s.prefixLen)

/-- Either operation is carried out on the range of a segment. -/
theorem maskBounds?_eq (hbits : bits ≤ 16) (hb : b.Within bits) (op : BitOp) (value : Nat) :
    maskBounds? bits op b value = some (maskBounds bits op b value) := by
  cases op with
  | and =>
      have hroom : 2 ^ bits ≤ 2 ^ 32 := Nat.pow_le_pow_right (by decide) (by omega)
      exact maskRange?_eq hb.lower_le_upper (Nat.lt_of_lt_of_le hb.upper_lt hroom) _ _
  | or => exact orRange?_eq (by omega) hb.lower_le_upper hb.upper_lt _

/-- **Applying a mask never stops**: the mask of a segment is a value that its word holds. -/
theorem applyMask?_eq (hs : s.WellFormed) (hmask : mask.WellFormed) (op : BitOp) :
    applyMask? s op mask = some (s.applyMask op mask) := by
  unfold applyMask? Section.applyMask
  apply after?_eq
  intro _ hcheck
  have hsteps : ∀ place ∈ (s.bounds.zip mask.bounds).zipIdx,
      maskSegment? s.version.segmentBits op place = some (
        let masked := maskBounds s.version.segmentBits op place.1.1 place.1.2.lower
        if masked.contiguous then .ok masked.bounds
        else .error (.maskOfRange op place.2 place.1.1 place.1.2.lower)) := by
    rintro ⟨⟨b, m⟩, index⟩ hmem
    have hb : b ∈ s.bounds := (List.of_mem_zip (List.fst_mem_of_mem_zipIdx hmem)).1
    rw [maskSegment?, bind_eq (maskBounds?_eq (segmentBits_le s.version) (hs.within b hb) op _)]
    simp only
    split
    · rfl
    · rfl
  rw [bind_eq (traverse?_eq hsteps)]
  apply after?_eq
  intro bounds hbounds
  have hwf : Section.WellFormed { s with bounds } := by
    apply wellFormed_of_applyMask hs hmask
    exact bind_eq_ok_iff.2 ⟨_, hcheck, bind_eq_ok_iff.2 ⟨bounds, hbounds, rfl⟩⟩
  rw [bind_eq (fromBounds?_eq hwf)]
  rfl

/-! ## Reversal -/

/-- The segments in reverse order. -/
def reverseSegments? (s : Section) : Option Section :=
  fromBounds? s.version s.bounds.reverse none

/-- The segments in reverse order, each reversed by `step`. -/
def reverseWith? (s : Section) (step : Segment → Option (Except AddressError Segment)) :
    Option (Except AddressError Section) := do
  after? (← traverse? step s.segments.reverse) fun reversed => do
    return .ok (← fromBounds? s.version (reversed.map (·.bounds)) none)

/-- The segment with the given number. -/
def segment? (s : Section) (index : Nat) : Option Segment :=
  s.segments[index]?

/-- **A segment is there exactly if its number is below the number of segments.** -/
theorem segment?_eq_none_iff (s : Section) (index : Nat) :
    segment? s index = none ↔ s.segmentCount ≤ index := by
  rw [segment?, List.getElem?_eq_none_iff, length_segments]
  rfl

section Reversal

variable (hs : s.WellFormed)

include hs

/-- The segments in reverse order are put together. -/
theorem reverseSegments?_eq : reverseSegments? s = some s.reverseSegments :=
  fromBounds?_eq (wellFormed_reverseSegments hs)

/-- A step that keeps segments well formed and as wide as they are can be carried out on all of
them. -/
theorem reverseWith?_eq {step? : Segment → Option (Except AddressError Segment)}
    {step : Segment → Except AddressError Segment}
    (hsteps : ∀ g : Segment, g.WellFormed → step? g = some (step g))
    (hkeep : ∀ g g' : Segment, g.WellFormed → step g = .ok g' → g'.WellFormed ∧
      g'.width = g.width) :
    reverseWith? s step? = some (s.reverseWith step) := by
  have hwf := fun t => wellFormed_of_reverseWith (t := t) hkeep hs
  have hmap : traverse? step? s.segments.reverse = some (s.segments.reverse.mapM step) :=
    traverse?_eq fun g hg => hsteps g (wellFormed_of_mem_segments hs (List.mem_reverse.1 hg)).1
  rw [reverseWith?, bind_eq hmap]
  apply after?_eq
  intro reversed hreversed
  have hbuild := fromBounds?_eq (hwf ⟨s.version, reversed.map (·.bounds), none⟩ (by
    rw [Section.reverseWith, hreversed]
    rfl))
  rw [bind_eq hbuild]
  rfl

/-- **Reversing the bits of a section never stops.** -/
theorem reverseBitsOf?_eq : reverseWith? s reverseBits? = some s.reverseBits :=
  reverseWith?_eq hs (fun _ => reverseBits?_eq) fun _ _ => Segment.wellFormed_of_reverseBits

/-- **Reversing the bytes of a section never stops.** -/
theorem reverseBytesOf?_eq : reverseWith? s reverseBytes? = some s.reverseBytes :=
  reverseWith?_eq hs (fun _ => reverseBytes?_eq) fun _ _ => Segment.wellFormed_of_reverseBytes

end Reversal

end Machine

end IpSpace
