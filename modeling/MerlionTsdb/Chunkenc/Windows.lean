import MerlionTsdb.Chunkenc.XorCodec
import MerlionTsdb.Encoding.BitReads

/-!
# Value windows of untrusted chunks

The window of `xor_read` comes from a 5-bit and a 6-bit field of the chunk.  Nothing checks that
together they fit in 64 bits; the number of trailing bits is then a wrapped `uint8_t`, and the value
is shifted by it.
-/

namespace MerlionTsdb.Chunkenc

open Encoding BitString BitReader

/-! ## Requests for significant bits -/

/-- The part of `xor_read` in front of its last read: the reader, the window and the number of bits it
asks for, if it gets that far. -/
def xorRequest (r : BitReader) (win : Window) : Option (BitReader × Window × UInt8) :=
  match r.readBit with
  | (.error _, _) => none
  | (.ok false, _) => none
  | (.ok true, r) =>
    match r.readBit with
    | (.error _, _) => none
    | (.ok false, r) => some (r, win, 64 - win.leading - win.trailing)
    | (.ok true, r) =>
      match r.readBits 5 with
      | (.error _, _) => none
      | (.ok lz, r) =>
        match r.readBits 6 with
        | (.error _, _) => none
        | (.ok sb, r) =>
          let mbits := if sb.toUInt8 = 0 then 64 else sb.toUInt8
          some (r, { leading := lz.toUInt8, trailing := 64 - lz.toUInt8 - mbits }, mbits)

/-- The window leaves room for the bits asked for, and the shift is below 64. -/
def LegalRequest (win : Window) (mbits : UInt8) : Prop :=
  win.leading.toNat + mbits.toNat ≤ 64 ∧
    win.trailing.toNat = 64 - (win.leading.toNat + mbits.toNat) ∧
    1 ≤ mbits.toNat ∧ mbits.toNat ≤ 64 ∧ win.trailing.toNat < 64

/-- What `xor_read` asks for is legal, or it returns an error. -/
def KeepsWindow (r : BitReader) (v : UInt64) (win : Window) : Prop :=
  ∀ r' win' mbits, xorRequest r win = some (r', win', mbits) →
    LegalRequest win' mbits ∨ ∃ e, (xorRead r v win).1 = .error (.error e)

theorem xorRead_of_request {r r' : BitReader} {v : UInt64} {win win' : Window} {mbits : UInt8}
    (h : xorRequest r win = some (r', win', mbits)) :
    xorRead r v win = xorReadBits r' v win' mbits := by
  unfold xorRequest at h
  unfold xorRead
  rcases hfirst : r.readBit with ⟨e | _ | _, r₁⟩
  · rw [hfirst] at h
    cases h
  · rw [hfirst] at h
    cases h
  rw [hfirst] at h
  dsimp only at h ⊢
  rcases hsecond : r₁.readBit with ⟨e | _ | _, r₂⟩
  · rw [hsecond] at h
    cases h
  · rw [hsecond] at h
    cases h
    rfl
  rw [hsecond] at h
  dsimp only at h ⊢
  rcases hlead : r₂.readBits 5 with ⟨e | lz, r₃⟩
  · rw [hlead] at h
    cases h
  rw [hlead] at h
  dsimp only at h ⊢
  rcases hsig : r₃.readBits 6 with ⟨e | sb, r₄⟩
  · rw [hsig] at h
    cases h
  rw [hsig] at h
  cases h
  rfl

/-- Without a request the value stays, and the window with it. -/
theorem xorRead_of_no_request {r r' : BitReader} {v v' : UInt64} {win win' : Window}
    (h : xorRequest r win = none) (hok : xorRead r v win = (.ok v', r', win')) :
    win' = win ∧ r.readBit = (.ok false, r') := by
  -- Both read the same bits, so the failures are the same too.
  unfold xorRequest at h
  unfold xorRead at hok
  split at h
  · rename_i e r₁ hfirst
    rw [hfirst] at hok
    cases hok
  · rename_i r₁ hfirst
    rw [hfirst] at hok
    cases hok
    exact ⟨rfl, hfirst⟩
  rename_i r₁ hfirst
  rw [hfirst] at hok
  dsimp only at hok
  split at h
  · rename_i e r₂ hsecond
    rw [hsecond] at hok
    cases hok
  · cases h
  rename_i r₂ hsecond
  rw [hsecond] at hok
  dsimp only at hok
  split at h
  · rename_i e r₃ hlead
    rw [hlead] at hok
    cases hok
  rename_i lz r₃ hlead
  rw [hlead] at hok
  dsimp only at hok
  split at h
  · rename_i e r₄ hsig
    rw [hsig] at hok
    cases hok
  · cases h

/-! ## Windows as bits -/

/-- The bits `l` start with a fresh window: two ones, `lead` leading zeros in five bits, and the number
`sig` of significant bits in six, 64 as zero.  `rest` follows. -/
def Opens (l : List Bool) (lead sig : Nat) (rest : List Bool) : Prop :=
  ∃ field, lead < 32 ∧ field < 64 ∧ (sig = if field = 0 then 64 else field) ∧
    l = true :: true :: (ofNat 5 lead ++ (ofNat 6 field ++ rest))

/-- The reader behind the control bits and the fields of a fresh window. -/
def behindFields (r : BitReader) : BitReader :=
  (((r.readBit).2.readBit.2.readBits 5).2.readBits 6).2

/-- The bits ahead open a window of more than 64 bits, and its read does not report the end of the
stream: the bits are there, or the read starves. -/
def TooWide (r : BitReader) : Prop :=
  ∃ lead sig rest, Opens r.rem lead sig rest ∧ 64 < lead + sig ∧
    (sig ≤ rest.length ∨ (behindFields r).Starved sig)

variable {r r' : BitReader} {l : List Bool} {win win' : Window} {mbits : UInt8}

/-- A request reuses the window, or comes from the fields of a fresh one. -/
theorem xorRequest_cases (h : r.Reads l) (hreq : xorRequest r win = some (r', win', mbits)) :
    (∃ rest, l = true :: false :: rest ∧ r'.Reads rest ∧ win' = win ∧
        mbits = 64 - win.leading - win.trailing) ∨
      ∃ rest, Opens l win'.leading.toNat mbits.toNat rest ∧ r'.Reads rest ∧ behindFields r = r' ∧
        win'.trailing = 64 - win'.leading - mbits ∧ win'.leading.toNat < 32 ∧ 1 ≤ mbits.toNat ∧
        mbits.toNat ≤ 64 := by
  unfold xorRequest at hreq
  split at hreq
  · cases hreq
  · cases hreq
  rename_i r₁ hfirst
  obtain ⟨l₁, rfl, h₁⟩ := readBit_ok h hfirst
  split at hreq
  · cases hreq
  · rename_i r₂ hsecond
    obtain ⟨l₂, rfl, h₂⟩ := readBit_ok h₁ hsecond
    cases hreq
    exact .inl ⟨_, rfl, h₂, rfl, rfl⟩
  rename_i r₂ hsecond
  obtain ⟨l₂, rfl, h₂⟩ := readBit_ok h₁ hsecond
  split at hreq
  · cases hreq
  rename_i lz r₃ hlead
  obtain ⟨l₃, rfl, hlz, h₃⟩ := readBits_ok h₂ (by decide) hlead
  split at hreq
  · cases hreq
  rename_i sb r₄ hsig
  obtain ⟨l₄, rfl, hsb, h₄⟩ := readBits_ok h₃ (by decide) hsig
  cases hreq
  -- Fields of five and six bits fit in a byte.
  have hlz' : lz.toUInt8.toNat = lz.toNat := by
    rw [UInt64.toNat_toUInt8, Nat.mod_eq_of_lt (by omega)]
  have hsb' : sb.toUInt8.toNat = sb.toNat := by
    rw [UInt64.toNat_toUInt8, Nat.mod_eq_of_lt (by omega)]
  have hbits : (if sb.toUInt8 = 0 then 64 else sb.toUInt8).toNat =
      if sb.toNat = 0 then 64 else sb.toNat := by
    by_cases hzero : sb.toUInt8 = 0
    · rw [hzero] at hsb'
      have hnat : sb.toNat = 0 := hsb'.symm
      rw [if_pos hzero, if_pos hnat]
      rfl
    · have hne : ¬ sb.toNat = 0 := by
        intro hnat
        exact hzero (UInt8.toNat_inj.mp (hsb'.trans hnat))
      rw [if_neg hzero, if_neg hne, hsb']
  have hopens : Opens (true :: true :: (ofNat 5 lz.toNat ++ (ofNat 6 sb.toNat ++ l₄)))
      lz.toUInt8.toNat (if sb.toUInt8 = 0 then 64 else sb.toUInt8).toNat l₄ := by
    rw [hlz']
    exact ⟨sb.toNat, hlz, hsb, hbits, rfl⟩
  refine .inr ⟨l₄, hopens, h₄, ?_, rfl, ?_, ?_⟩
  · unfold behindFields
    rw [hfirst, hsecond, hlead, hsig]
  · rw [hlz']
    exact hlz
  · rw [hbits]
    split <;> omega

theorem Opens.unique {lead lead' sig sig' : Nat} {rest rest' : List Bool}
    (h : Opens l lead sig rest) (h' : Opens l lead' sig' rest') :
    lead = lead' ∧ sig = sig' ∧ rest = rest' := by
  obtain ⟨field, hlead, hfield, rfl, rfl⟩ := h
  obtain ⟨field', hlead', hfield', rfl, heq⟩ := h'
  simp only [List.cons.injEq, true_and] at heq
  obtain ⟨hfirst, heq⟩ := List.append_inj heq (by rw [length_ofNat, length_ofNat])
  obtain ⟨hsecond, rfl⟩ := List.append_inj heq (by rw [length_ofNat, length_ofNat])
  have hleads := ofNat_inj hfirst
  have hfields := ofNat_inj hsecond
  have hleads' : lead = lead' := by omega
  have hfields' : field = field' := by omega
  rw [hleads', hfields']
  exact ⟨rfl, rfl, rfl⟩

/-- Where a fresh window opens, `xor_read` gets as far as asking for its bits. -/
theorem Opens.exists_request {lead sig : Nat} {rest : List Bool} (hopens : Opens l lead sig rest)
    (h : r.Reads l) (win : Window) : ∃ found, xorRequest r win = some found := by
  obtain ⟨field, hlead, hfield, -, rfl⟩ := hopens
  have hword : ∀ n < 64, (UInt64.ofNat n).toNat = n := by
    intro n hn
    apply UInt64.toNat_ofNat_of_lt'
    rw [UInt64.size]
    omega
  obtain ⟨r₁, hread₁, h₁⟩ := readBit_reads h
  obtain ⟨r₂, hread₂, h₂⟩ := readBit_reads h₁
  rw [← hword lead (by omega)] at h₂
  obtain ⟨r₃, hread₃, h₃⟩ := readBits_reads h₂ (by rw [hword lead (by omega)]; exact hlead) (by decide)
  rw [← hword field hfield] at h₃
  obtain ⟨r₄, hread₄, -⟩ := readBits_reads h₃ (by rw [hword field hfield]; exact hfield) (by decide)
  unfold xorRequest
  rw [hread₁]
  dsimp only
  rw [hread₂]
  dsimp only
  rw [hread₃]
  dsimp only
  rw [hread₄]
  exact ⟨_, rfl⟩

/-- The trailing bits of a fresh window, in `uint8_t`: what is left of 64, or far more than 64. -/
theorem toNat_trailing {lead mbits : UInt8} (hlead : lead.toNat < 32) (hpos : 1 ≤ mbits.toNat)
    (hle : mbits.toNat ≤ 64) :
    (lead.toNat + mbits.toNat ≤ 64 →
        (64 - lead - mbits).toNat = 64 - (lead.toNat + mbits.toNat)) ∧
      (64 < lead.toNat + mbits.toNat → 64 ≤ (64 - lead - mbits).toNat) := by
  have hfirst : (64 - lead).toNat = 64 - lead.toNat := by
    rw [UInt8.toNat_sub_of_le]
    · rfl
    · rw [UInt8.le_iff_toNat_le]
      change _ ≤ 64
      omega
  rw [UInt8.toNat_sub, hfirst]
  omega

/-- A window in use is legal to ask with again. -/
theorem Window.Legal.request (h : win.Legal) :
    LegalRequest win (64 - win.leading - win.trailing) := by
  have hsig := h.toNat_sigbits
  obtain ⟨hlead, hsum⟩ := h
  unfold LegalRequest
  omega

/-! ## One value -/

/-- At a legal window, `xor_read` keeps to legal ones or reports an error, unless the bits ahead open a
window that is too wide. -/
theorem keepsWindow_iff (h : r.Reads l) (hwin : win.Legal) (v : UInt64) :
    KeepsWindow r v win ↔ ¬ TooWide r := by
  have hrem : r.Reads r.rem := h.rem_eq.symm ▸ h
  constructor
  · rintro hkeeps ⟨lead, sig, rest, hopens, hwide, hserved⟩
    -- The bits ahead ask for a window, and the window they ask for is the one that is too wide.
    obtain ⟨⟨r', win', mbits⟩, hreq⟩ := hopens.exists_request hrem win
    have hresult := hkeeps r' win' mbits hreq
    rcases xorRequest_cases hrem hreq with
      ⟨rest', hreuse, -⟩ | ⟨rest', hopens', hrest, hbehind, htrail, hlead, hpos, hle⟩
    · -- Reuse starts with other control bits.
      obtain ⟨field, -, -, -, hbits⟩ := hopens
      rw [hreuse] at hbits
      cases hbits
    · obtain ⟨rfl, rfl, rfl⟩ := hopens.unique hopens'
      -- Its trailing count has wrapped around, so the value would be shifted by 64 or more.
      have hshift := (toNat_trailing hlead hpos hle).2 hwide
      rw [← htrail] at hshift
      have hover : 64 ≤ win'.trailing := by
        rw [UInt8.le_iff_toNat_le]
        exact hshift
      rcases hresult with hlegal | ⟨e, he⟩
      · exact Nat.not_le.mpr hwide hlegal.1
      · rw [xorRead_of_request hreq, xorReadBits] at he
        by_cases hlen : mbits.toNat ≤ rest.length
        · obtain ⟨r'', hread, -⟩ := readBits_next hrest hle hlen
          rw [hread] at he
          dsimp only at he
          rw [if_pos hover] at he
          cases he
        · have hstarved : r'.Starved mbits.toNat := hbehind ▸ hserved.resolve_left hlen
          have hread := readBits_short hrest hle (Nat.lt_of_not_le hlen)
          rw [if_pos hstarved] at hread
          rcases hbits : r'.readBits mbits.toNat with ⟨e' | x, r''⟩
          · rw [hbits] at hread he
            cases hread
            cases he
          · rw [hbits] at hread
            cases hread
  · intro hnarrow r' win' mbits hreq
    rcases xorRequest_cases hrem hreq with
      ⟨rest, -, -, rfl, rfl⟩ | ⟨rest, hopens, hrest, hbehind, htrail, hlead, hpos, hle⟩
    · exact .inl hwin.request
    by_cases hwide : 64 < win'.leading.toNat + mbits.toNat
    · right
      -- The stream ends before such a value, and the reader notices it.
      have hnot : ¬ (mbits.toNat ≤ rest.length ∨ r'.Starved mbits.toNat) := by
        intro hserved
        rw [← hbehind] at hserved
        exact hnarrow ⟨_, _, rest, hopens, hwide, hserved⟩
      rw [not_or] at hnot
      have hread := readBits_short hrest hle (Nat.lt_of_not_le hnot.1)
      rw [if_neg hnot.2] at hread
      refine ⟨.endOfStream, ?_⟩
      rw [xorRead_of_request hreq, xorReadBits]
      rcases hbits : r'.readBits mbits.toNat with ⟨e' | x, r''⟩
      · rw [hbits] at hread
        dsimp only at hread ⊢
        cases hread
        rfl
      · rw [hbits] at hread
        cases hread
    · left
      have htrail' := (toNat_trailing hlead hpos hle).1 (Nat.le_of_not_lt hwide)
      rw [← htrail] at htrail'
      unfold LegalRequest
      omega

/-- A value that is read leaves a legal window, and the reader inside its stream. -/
theorem xorRead_ok {v v' : UInt64} (h : r.Reads l) (hwin : win.Legal)
    (hok : xorRead r v win = (.ok v', r', win')) : win'.Legal ∧ ∃ rest, r'.Reads rest := by
  cases hreq : xorRequest r win with
  | none =>
    obtain ⟨rfl, hread⟩ := xorRead_of_no_request hreq hok
    obtain ⟨rest, -, h'⟩ := readBit_ok h hread
    exact ⟨hwin, rest, h'⟩
  | some found =>
    obtain ⟨r₁, win₁, mbits⟩ := found
    rw [xorRead_of_request hreq, xorReadBits] at hok
    rcases hbits : r₁.readBits mbits.toNat with ⟨e | x, r₂⟩
    · rw [hbits] at hok
      cases hok
    rw [hbits] at hok
    dsimp only at hok
    split at hok
    · cases hok
    rename_i hshift
    cases hok
    rw [UInt8.le_iff_toNat_le] at hshift
    change ¬ 64 ≤ win'.trailing.toNat at hshift
    -- The window is the old one, or opened by two counts that have just been read.
    rcases xorRequest_cases h hreq with
      ⟨rest, -, hrest, rfl, rfl⟩ | ⟨rest, hopens, hrest, hbehind, htrail, hlead, hpos, hle⟩
    · have hsig := hwin.toNat_sigbits
      obtain ⟨rest', -, -, h'⟩ := readBits_ok hrest (by omega) hbits
      exact ⟨hwin, rest', h'⟩
    · obtain ⟨rest', -, -, h'⟩ := readBits_ok hrest hle hbits
      obtain ⟨hnarrow, hwide⟩ := toNat_trailing hlead hpos hle
      rw [← htrail] at hnarrow hwide
      refine ⟨⟨by omega, ?_⟩, rest', h'⟩
      by_cases hsum : 64 < win'.leading.toNat + mbits.toNat
      · have hover := hwide hsum
        omega
      · have hexact := hnarrow (by omega)
        omega

/-! ## Iterating a chunk -/

/-- The iterator with which `next` calls `read_value`, if it does. -/
def XORIterator.atValue (it : XORIterator) : Option XORIterator :=
  if it.err.isSome || it.numRead = it.numTotal then none
  else if it.numRead = 0 then none
  else if it.numRead = 1 then
    match it.reader.readUvarint with
    | (.error _, _) => none
    | (.ok td, r) => some { it with reader := r, tDelta := td, t := it.t + td.toInt64 }
  else
    match readPrefix it.reader 0 4 with
    | (.error _, _) => none
    | (.ok p, r) =>
      match readDod r p with
      | (.error _, _) => none
      | (.ok dod, r) =>
        let tDelta := (it.tDelta.toInt64 + dod).toUInt64
        some { it with reader := r, tDelta := tDelta, t := it.t + tDelta.toInt64 }

/-- The iterator of a chunk after any number of `next` calls. -/
inductive Iterated (c : XORChunk) : XORIterator → Prop
  | start : Iterated c c.iterator
  | next {it : XORIterator} (h : Iterated c it) : Iterated c it.next.2

/-- Every `xor_read` of the iteration keeps to legal windows, or returns an error. -/
def WindowsLegal (c : XORChunk) : Prop :=
  ∀ it it', Iterated c it → it.atValue = some it' → KeepsWindow it'.reader it'.v it'.window

/-- An iterator without error is inside its stream, with a window that is legal to reuse. -/
def XORIterator.Sound (it : XORIterator) : Prop :=
  it.err = none → (∃ l, it.reader.Reads l) ∧ it.window.Legal

theorem readPrefix_ok {p p' : UInt8} {i : Nat} (h : r.Reads l)
    (hok : readPrefix r p i = (.ok p', r')) : ∃ rest, r'.Reads rest := by
  induction i generalizing r l p with
  | zero =>
    cases hok
    exact ⟨l, h⟩
  | succ i ih =>
    unfold readPrefix at hok
    rcases hbit : r.readBit with ⟨e | b, r₁⟩
    · rw [hbit] at hok
      cases hok
    obtain ⟨rest, -, h₁⟩ := readBit_ok h hbit
    rw [hbit] at hok
    cases b with
    | false =>
      cases hok
      exact ⟨rest, h₁⟩
    | true => exact ih h₁ hok

theorem readDod_ok {p : UInt8} {dod : Int64} (h : r.Reads l) (hok : readDod r p = (.ok dod, r')) :
    ∃ rest, r'.Reads rest := by
  -- Each prefix stands for one read of bits, or for none.
  have hread : ∀ n ≤ 64, ∀ f : UInt64 → Int64,
      (match r.readBits n with
        | (.error e, r) => (.error e, r)
        | (.ok bits, r) => (.ok (f bits), r) : Except Fault Int64 × BitReader) = (.ok dod, r') →
      ∃ rest, r'.Reads rest := by
    intro n hn f heq
    rcases hbits : r.readBits n with ⟨e | bits, r₁⟩
    · rw [hbits] at heq
      cases heq
    · rw [hbits] at heq
      cases heq
      obtain ⟨rest, -, -, h₁⟩ := readBits_ok h hn hbits
      exact ⟨rest, h₁⟩
  unfold readDod at hok
  dsimp only at hok
  split at hok
  · exact hread 14 (by decide) _ hok
  split at hok
  · exact hread 17 (by decide) _ hok
  split at hok
  · exact hread 20 (by decide) _ hok
  split at hok
  · exact hread 64 le_rfl _ hok
  · cases hok
    exact ⟨l, h⟩

/-- An iterator that goes on has seen no error. -/
theorem XORIterator.err_of_goes {it : XORIterator}
    (hgo : ¬ (it.err.isSome || decide (it.numRead = it.numTotal)) = true) : it.err = none := by
  simp only [Bool.or_eq_true, not_or] at hgo
  exact Option.not_isSome_iff_eq_none.mp hgo.1

theorem XORIterator.Sound.atValue {it it' : XORIterator} (h : it.Sound) (hval : it.atValue = some it') :
    it.next = it'.readValue ∧ it'.Sound ∧ it'.err = none := by
  unfold XORIterator.atValue at hval
  unfold XORIterator.next
  split at hval
  · cases hval
  rename_i hgo
  have herr := XORIterator.err_of_goes hgo
  obtain ⟨⟨l, hreads⟩, hwin⟩ := h herr
  rw [if_neg hgo]
  split at hval
  · cases hval
  rename_i hfirst
  rw [if_neg hfirst]
  split at hval
  · rename_i hsecond
    -- Behind the delta of the second sample.
    rw [if_pos hsecond]
    unfold XORIterator.nextSecond
    rcases hread : it.reader.readUvarint with ⟨e | td, r⟩
    · rw [hread] at hval
      cases hval
    rw [hread] at hval
    cases hval
    exact ⟨rfl, fun _ ↦ ⟨readUvarint_ok hreads hread, hwin⟩, herr⟩
  · rename_i hsecond
    -- Behind the delta of deltas of a later one.
    rw [if_neg hsecond]
    unfold XORIterator.nextRest
    rcases hpre : readPrefix it.reader 0 4 with ⟨e | p, r⟩
    · rw [hpre] at hval
      cases hval
    rw [hpre] at hval
    obtain ⟨l₁, h₁⟩ := readPrefix_ok hreads hpre
    dsimp only at hval ⊢
    rcases hdod : readDod r p with ⟨e | dod, r₂⟩
    · rw [hdod] at hval
      cases hval
    rw [hdod] at hval
    cases hval
    exact ⟨rfl, fun _ ↦ ⟨readDod_ok h₁ hdod, hwin⟩, herr⟩

theorem XORIterator.Sound.readValue {it : XORIterator} (h : it.Sound) (herr : it.err = none) :
    it.readValue.2.Sound := by
  obtain ⟨⟨l, hreads⟩, hwin⟩ := h herr
  unfold XORIterator.readValue
  rcases hread : xorRead it.reader it.v it.window with ⟨e | v, r, win⟩
  · intro hnone
    cases hnone
  · obtain ⟨hwin', hreads'⟩ := xorRead_ok hreads hwin hread
    exact fun _ ↦ ⟨hreads', hwin'⟩

/-- A `next` that reads no value leaves the window alone, whether it is the first or fails. -/
theorem XORIterator.Sound.next {it : XORIterator} (h : it.Sound) : it.next.2.Sound := by
  cases hval : it.atValue with
  -- With a value to read, its window is legal.
  | some it' =>
    obtain ⟨hnext, hsound, herr⟩ := h.atValue hval
    rw [hnext]
    exact hsound.readValue herr
  -- Without one, `next` stops, fails, or reads the first sample.
  | none =>
    have hfails : ∀ {it' : XORIterator}, it'.err ≠ none → it'.Sound :=
      fun herr hnone ↦ absurd hnone herr
    unfold XORIterator.atValue at hval
    unfold XORIterator.next
    split at hval
    · rename_i hstop
      rw [if_pos hstop]
      exact h
    rename_i hgo
    have herr := XORIterator.err_of_goes hgo
    obtain ⟨⟨l, hreads⟩, hwin⟩ := h herr
    rw [if_neg hgo]
    split at hval
    · rename_i hfirst
      -- The first value is read as its 64 bits, with no window.
      rw [if_pos hfirst]
      unfold XORIterator.nextFirst
      rcases htime : it.reader.readVarint with ⟨e | t, r₁⟩
      · exact hfails (Option.some_ne_none e)
      obtain ⟨l₁, h₁⟩ := readVarint_ok hreads htime
      dsimp only
      rcases hvalue : r₁.readBits 64 with ⟨e | v, r₂⟩
      · exact hfails (Option.some_ne_none e)
      · obtain ⟨l₂, -, -, h₂⟩ := readBits_ok h₁ le_rfl hvalue
        exact fun _ ↦ ⟨⟨l₂, h₂⟩, hwin⟩
    rename_i hfirst
    rw [if_neg hfirst]
    split at hval
    · rename_i hsecond
      -- A delta that is read leads on to a value.
      rw [if_pos hsecond]
      unfold XORIterator.nextSecond
      rcases hread : it.reader.readUvarint with ⟨e | td, r⟩
      · exact hfails (Option.some_ne_none e)
      · rw [hread] at hval
        cases hval
    · rename_i hsecond
      -- So does a delta of deltas.
      rw [if_neg hsecond]
      unfold XORIterator.nextRest
      rcases hpre : readPrefix it.reader 0 4 with ⟨e | p, r⟩
      · exact hfails (Option.some_ne_none e)
      rw [hpre] at hval
      dsimp only at hval ⊢
      rcases hdod : readDod r p with ⟨e | dod, r₂⟩
      · exact hfails (Option.some_ne_none e)
      · rw [hdod] at hval
        cases hval

theorem sound_of_iterated {c : XORChunk} {it : XORIterator} (h : Iterated c it) : it.Sound := by
  induction h with
  | start =>
    intro _
    unfold XORChunk.iterator XORIterator.new
    have hwin : Window.Legal { leading := 0, trailing := 0 } := ⟨by decide, by decide⟩
    split
    · exact ⟨⟨_, reads_new _⟩, hwin⟩
    · exact ⟨⟨_, reads_new _⟩, hwin⟩
  | next _ ih => exact ih.next

/-- Iterating the bytes of any chunk keeps the value window legal, or reports an error, if and only if
no value is read where the bits open a window that is too wide. -/
theorem windowsLegal_iff (bytes : Bytes) :
    WindowsLegal (XORChunk.fromBytes bytes) ↔
      ∀ it it', Iterated (XORChunk.fromBytes bytes) it → it.atValue = some it' →
        ¬ TooWide it'.reader := by
  have hstep : ∀ it it', Iterated (XORChunk.fromBytes bytes) it → it.atValue = some it' →
      (KeepsWindow it'.reader it'.v it'.window ↔ ¬ TooWide it'.reader) := by
    intro it it' hit hval
    obtain ⟨-, hsound, herr⟩ := (sound_of_iterated hit).atValue hval
    obtain ⟨⟨l, hreads⟩, hwin⟩ := hsound herr
    exact keepsWindow_iff hreads hwin it'.v
  constructor
  · exact fun h it it' hit hval ↦ (hstep it it' hit hval).mp (h it it' hit hval)
  · exact fun h it it' hit hval ↦ (hstep it it' hit hval).mpr (h it it' hit hval)

/-- Two samples, both zero but for the value of the second: 31 leading zeros and 63 significant bits. -/
def wideChunk : Bytes :=
  [0, 2] ++ List.replicate 10 0 ++ List.replicate 10 0xFF

/-- The window is applied: `trailing_` becomes 226, and the value is shifted by it. -/
theorem wideChunk_applied :
    let it := (XORChunk.fromBytes wideChunk).iterator.next.2
    (it.atValue.bind fun it ↦ (xorRequest it.reader it.window).map Prod.snd) =
        some ({ leading := 31, trailing := 226 }, 63) ∧
      (it.atValue.map fun it ↦ (xorRead it.reader it.v it.window).1) = some (.error .undefined) ∧
      ¬ WindowsLegal (XORChunk.fromBytes wideChunk) := by
  intro it
  have hrequest : (it.atValue.bind fun it ↦ (xorRequest it.reader it.window).map Prod.snd) =
      some ({ leading := 31, trailing := 226 }, 63) := by decide
  have hresult : (it.atValue.map fun it ↦ (xorRead it.reader it.v it.window).1) =
      some (.error .undefined) := by decide
  refine ⟨hrequest, hresult, fun hlegal ↦ ?_⟩
  obtain ⟨it', hval, hundefined⟩ := Option.map_eq_some_iff.mp hresult
  obtain ⟨it'', hval', hfound⟩ := Option.bind_eq_some_iff.mp hrequest
  rw [hval, Option.some_inj] at hval'
  subst hval'
  obtain ⟨⟨r, win, mbits⟩, hreq, heq⟩ := Option.map_eq_some_iff.mp hfound
  cases heq
  rcases hlegal it it' (.next .start) hval r _ _ hreq with hwin | ⟨e, he⟩
  · exact absurd hwin.1 (by decide)
  · rw [hundefined] at he
    cases he

end MerlionTsdb.Chunkenc
