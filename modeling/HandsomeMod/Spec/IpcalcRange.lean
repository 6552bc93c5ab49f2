import HandsomeMod.ForStd.Subnet
import HandsomeMod.Native.Ipcalc

/-!
# The range of `ipcalc.sh`

The network, its broadcast address and its prefix length are right for every netmask, however it is
given. The range is one of hosts unless the host part of the start offset consists of ones.
-/

namespace HandsomeMod.Native.Ipcalc

open ForStd ForStd.Awk

/-! ### Addresses in dotted form -/

def octets (v : Nat) : List Nat :=
  [v / 2 ^ 24 % 2 ^ 8, v / 2 ^ 16 % 2 ^ 8, v / 2 ^ 8 % 2 ^ 8, v % 2 ^ 8]

/-- An address in dotted form. -/
def dotted (v : Nat) : List UInt8 := [0x2e].intercalate ((octets v).map decText)

/-- A number is printed with digits only. -/
private theorem notMem_decText {c : UInt8} (hc : isDigit c = false) (n : Nat) : c ∉ decText n := by
  intro hmem
  rw [(decText_spec n).2.1 c hmem] at hc
  cases hc

/-- The text of an address. -/
private theorem dotted_eq (v : Nat) : dotted v = decText (v / 2 ^ 24 % 2 ^ 8) ++ 0x2e ::
    (decText (v / 2 ^ 16 % 2 ^ 8) ++ 0x2e :: (decText (v / 2 ^ 8 % 2 ^ 8) ++ 0x2e ::
      decText (v % 2 ^ 8))) := by
  simp [dotted, octets, List.intercalate]

/-- The text of an address is not empty. -/
private theorem dotted_ne_nil (v : Nat) : dotted v ≠ [] := by
  rw [dotted_eq]
  simp

/-- Splitting at the dots gives the octets. -/
private theorem split_dotted (v : Nat) : split (dotted v) 0x2e = (octets v).map decText := by
  rw [split_of_ne_nil (dotted_ne_nil v)]
  apply List.splitOn_intercalate
  · intro l hl
    obtain ⟨n, -, rfl⟩ := List.mem_map.mp hl
    exact notMem_decText (by decide) n
  · simp [octets]

/-- Addresses of 32 bits are told apart by their dotted forms. -/
private theorem dotted_inj {v v' : Nat} (hv : v < 2 ^ 32) (hv' : v' < 2 ^ 32)
    (h : dotted v = dotted v') :
    v = v' := by
  have hfields : (octets v).map decText = (octets v').map decText := by
    rw [← split_dotted, ← split_dotted, h]
  have hinj : ∀ a b : Nat, decText a = decText b → a = b := by
    intro a b hab
    rw [← (decText_spec a).2.2, hab, (decText_spec b).2.2]
  have hoctets : octets v = octets v' := List.map_injective_iff.mpr hinj hfields
  simp only [octets, List.cons.injEq, and_true] at hoctets
  omega

variable {w : Nat}

/-- An address fits the words of awk. -/
private theorem lt_two_pow {v : Nat} (hw : 32 ≤ w) (hv : v < 2 ^ 32) : v < 2 ^ w :=
  Nat.lt_of_lt_of_le hv (Nat.pow_le_pow_right Nat.two_pos hw)

/-- An octet is put behind the ones in front of it. -/
private theorem or_lshift (hw : 32 ≤ w) {ret a : Nat} (hret : ret < 2 ^ 24) (ha : a < 2 ^ 8) :
    or w (lshift w ret 8) (num (decText a)) = (ret * 2 ^ 8 + a : Nat) := by
  have hshift : ret <<< 8 < 2 ^ w := by
    rw [Nat.shiftLeft_eq]
    exact lt_two_pow hw (by omega)
  rw [show (8 : Int) = (8 : Nat) from rfl, lshift_natCast hshift (lt_two_pow hw (by decide)),
    num_decText, or_natCast hshift (lt_two_pow hw (by omega)), Nat.shiftLeft_eq, Nat.mul_comm,
    Nat.two_pow_add_eq_or_of_lt ha]

/-- The text of an address is read as the address. -/
private theorem ip2int_dotted (hw : 32 ≤ w) {v : Nat} (hv : v < 2 ^ 32) : ip2int w (dotted v) = v
    := by
  have hzero : (0 : Int) = (0 : Nat) := rfl
  rw [ip2int, split_dotted]
  simp only [octets, List.map_cons, List.map_nil, List.foldl_cons, List.foldl_nil]
  rw [hzero, or_lshift hw (by decide) (by omega), or_lshift hw (by omega) (by omega),
    or_lshift hw (by omega) (by omega), or_lshift hw (by omega) (by omega)]
  congr 1
  omega

/-- An address is printed as its text. -/
private theorem int2ip_eq_dotted (hw : 32 ≤ w) {v : Nat} (hv : v < 2 ^ 32) : int2ip w v = dotted v
    := by
  -- the low byte
  have hand {a : Nat} (ha : a < 2 ^ 32) : and w a 255 = (a % 2 ^ 8 : Nat) := by
    rw [show (255 : Int) = (2 ^ 8 - 1 : Nat) from rfl,
      and_natCast (lt_two_pow hw ha) (lt_two_pow hw (by decide)), Nat.and_two_pow_sub_one_eq_mod]
  -- and what is above it
  have hshift {a : Nat} (ha : a < 2 ^ 32) : rshift w a 8 = (a / 2 ^ 8 : Nat) := by
    rw [show (8 : Int) = (8 : Nat) from rfl,
      rshift_natCast (lt_two_pow hw ha) (lt_two_pow hw (by decide)), Nat.shiftRight_eq_div_pow]
  have htext (a : Nat) : intText a = decText a := by
    rw [intText, if_neg (by omega), Int.natAbs_natCast]
  rw [int2ip, int2ipLoop, int2ipLoop, int2ipLoop, int2ipLoop, hshift hv, hshift (by omega),
    hshift (by omega), hand hv, hand (by omega), hand (by omega), hand (by omega)]
  simp only [htext, Nat.div_div_eq_div_mul]
  rw [dotted_eq]
  show _ = _
  simp only [List.append_assoc]
  rfl

/-! ### Netmasks -/

/-- The netmask of a prefix length. -/
def netmask (p : Nat) : Nat := (2 ^ (32 - p) - 1) ^^^ (2 ^ 32 - 1)

/-- `compl32` inverts the 32 bits of an address. -/
private theorem compl32_natCast (hw : 32 ≤ w) {v : Nat} (hv : v < 2 ^ 32) :
    compl32 w v = (v ^^^ (2 ^ 32 - 1) : Nat) :=
  xor_natCast (lt_two_pow hw hv) (lt_two_pow hw (by decide))

/-- A line of `bitcount` on numbers of 32 bits. -/
def addPairs (i mask c : Nat) : Nat := (c >>> i &&& mask) + (c &&& mask)

/-- A step of the bit count keeps to 32 bits. -/
private theorem addPairs_lt (i c : Nat) {mask : Nat} (hmask : mask < 2 ^ 31) :
    addPairs i mask c < 2 ^ 32 := by
  have hhigh : c >>> i &&& mask ≤ mask := Nat.and_le_right
  have hlow : c &&& mask ≤ mask := Nat.and_le_right
  rw [addPairs]
  omega

/-- A step of the bit count adds the fields of a word. -/
private theorem bitcountStep_natCast (hw : 32 ≤ w) {i mask c : Nat} (hi : i < 2 ^ 32)
    (hmask : mask < 2 ^ 31) (hc : c < 2 ^ 32) :
    bitcountStep w i mask c = (addPairs i mask c : Nat) := by
  have hmask' : mask < 2 ^ w := lt_two_pow hw (by omega)
  have hshift : c >>> i < 2 ^ w := by
    rw [Nat.shiftRight_eq_div_pow]
    exact lt_two_pow hw (Nat.lt_of_le_of_lt (Nat.div_le_self _ _) hc)
  rw [bitcountStep, rshift_natCast (lt_two_pow hw hc) (lt_two_pow hw hi), and_natCast hshift hmask',
    and_natCast (lt_two_pow hw hc) hmask', addPairs, Nat.cast_add]

/-- The bit count of a mask of low bits. -/
private theorem bitcount_ones (hw : 32 ≤ w) {k : Nat} (hk : k ≤ 32) :
    bitcount w (2 ^ k - 1 : Nat) = k := by
  -- 33 cases, computed
  have hall : ∀ k ≤ 32, addPairs 16 0x0000ffff (addPairs 8 0x00ff00ff (addPairs 4 0x0f0f0f0f
      (addPairs 2 0x33333333 (addPairs 1 0x55555555 (2 ^ k - 1))))) = k := by decide
  have hones : 2 ^ k - 1 < 2 ^ 32 := by
    have hle : 2 ^ k ≤ 2 ^ 32 := Nat.pow_le_pow_right Nat.two_pos hk
    omega
  -- no step leaves 32 bits, so the script computes the same as on natural numbers
  have h1 : bitcountStep w 1 0x55555555 (2 ^ k - 1 : Nat) =
      (addPairs 1 0x55555555 (2 ^ k - 1) : Nat) :=
    bitcountStep_natCast hw (by decide) (by decide) hones
  have h2 {c : Nat} (hc : c < 2 ^ 32) : bitcountStep w 2 0x33333333 c =
      (addPairs 2 0x33333333 c : Nat) := bitcountStep_natCast hw (by decide) (by decide) hc
  have h4 {c : Nat} (hc : c < 2 ^ 32) : bitcountStep w 4 0x0f0f0f0f c =
      (addPairs 4 0x0f0f0f0f c : Nat) := bitcountStep_natCast hw (by decide) (by decide) hc
  have h8 {c : Nat} (hc : c < 2 ^ 32) : bitcountStep w 8 0x00ff00ff c =
      (addPairs 8 0x00ff00ff c : Nat) := bitcountStep_natCast hw (by decide) (by decide) hc
  have h16 {c : Nat} (hc : c < 2 ^ 32) : bitcountStep w 16 0x0000ffff c =
      (addPairs 16 0x0000ffff c : Nat) := bitcountStep_natCast hw (by decide) (by decide) hc
  rw [bitcount, h1, h2 (addPairs_lt _ _ (by decide)), h4 (addPairs_lt _ _ (by decide)),
    h8 (addPairs_lt _ _ (by decide)), h16 (addPairs_lt _ _ (by decide)), hall k hk]

/-- A netmask is an address. -/
private theorem netmask_lt (p : Nat) : netmask p < 2 ^ 32 := by
  apply Nat.xor_lt_two_pow
  · have hle : 2 ^ (32 - p) ≤ 2 ^ 32 := Nat.pow_le_pow_right Nat.two_pos (by omega)
    omega
  · decide

/-- The host part of a netmask is inverted to low bits. -/
private theorem compl32_netmask (hw : 32 ≤ w) (p : Nat) :
    compl32 w (netmask p) = (2 ^ (32 - p) - 1 : Nat) := by
  rw [compl32_natCast hw (netmask_lt p), netmask, Nat.xor_assoc, Nat.xor_self, Nat.xor_zero]

/-- A prefix length is read as its netmask. -/
private theorem maskOf_decText (hw : 32 ≤ w) {p : Nat} (hp : p ≤ 32) :
    maskOf w (decText p) = netmask p := by
  have hbits : ((32 : Int) - (p : Int)).toNat = 32 - p := by omega
  have hones : (2 : Int) ^ (32 - p) - 1 = (2 ^ (32 - p) - 1 : Nat) := by
    rw [Nat.cast_sub Nat.one_le_two_pow, Nat.cast_pow]
    rfl
  have hlt : 2 ^ (32 - p) - 1 < 2 ^ 32 := by
    have hle : 2 ^ (32 - p) ≤ 2 ^ 32 := Nat.pow_le_pow_right Nat.two_pos (by omega)
    omega
  rw [maskOf, num_decText, hbits, hones, compl32_natCast hw hlt, netmask]

/-! ### The output -/

/-- The arguments with the netmask in dotted form, as a prefix length and behind a slash. -/
def argvs (addr p start count : Nat) : List (List (List UInt8)) :=
  [[ascii "awk", dotted addr, dotted (netmask p), dotted start, decText count],
    [ascii "awk", dotted addr, decText p, dotted start, decText count],
    [ascii "awk", dotted addr ++ 0x2f :: decText p, dotted start, decText count]]

def report (addr p network broadcast first last : Nat) : List (List UInt8) :=
  [ascii "IP=" ++ dotted addr, ascii "NETMASK=" ++ dotted (netmask p),
    ascii "BROADCAST=" ++ dotted broadcast, ascii "NETWORK=" ++ dotted network,
    ascii "PREFIX=" ++ decText p, ascii "START=" ++ dotted first, ascii "END=" ++ dotted last]

/-- However the netmask is given, the output is one about the network of the address and a range of
    its hosts, of at most `count` addresses behind the first one. -/
def RangeOfHosts (w addr p start count : Nat) : Prop :=
  ∃ lo hi first last, IsLeast (network (32 - p) addr) lo ∧ IsGreatest (network (32 - p) addr) hi ∧
    (∀ argv ∈ argvs addr p start count, main w argv = report addr p lo hi first last) ∧
    lo < first ∧ first ≤ last ∧ last < hi ∧ last - first ≤ count

/-! ### The three forms of the netmask -/

/-- An address is printed with digits and dots only. -/
private theorem notMem_dotted {c : UInt8} (hdigit : isDigit c = false) (hdot : c ≠ 0x2e) (v : Nat) :
    c ∉ dotted v := by
  rw [dotted_eq]
  simp only [List.mem_append, List.mem_cons, not_or]
  exact ⟨notMem_decText hdigit _, hdot, notMem_decText hdigit _, hdot, notMem_decText hdigit _,
    hdot, notMem_decText hdigit _⟩

/-- Whatever the form, the variables are the same. -/
private theorem parseArgv_argvs (hw : 32 ≤ w) {addr p : Nat} (haddr : addr < 2 ^ 32) (hp : p ≤ 32)
    (start count : Nat) {argv : List (List UInt8)} (h : argv ∈ argvs addr p start count) :
    parseArgv w argv = ⟨addr, netmask p, dotted start, decText count⟩ := by
  have hslash : index (dotted addr) 0x2f = 0 :=
    index_of_notMem (notMem_dotted (by decide) (by decide) addr)
  rw [argvs] at h
  simp only [List.mem_cons, List.not_mem_nil, or_false] at h
  -- netmask as an address, prefix length as a number, prefix length behind a slash
  rcases h with rfl | rfl | rfl
  · have hdot : index (dotted (netmask p)) 0x2e ≠ 0 := by
      rw [dotted_eq, index_append (notMem_decText (by decide) _)]
      exact Nat.succ_ne_zero _
    simp only [parseArgv, List.getD_cons_succ, List.getD_cons_zero]
    rw [if_pos hslash, if_neg hdot, ip2int_dotted hw haddr, ip2int_dotted hw (netmask_lt p)]
  · have hdot : index (decText p) 0x2e = 0 := index_of_notMem (notMem_decText (by decide) p)
    simp only [parseArgv, List.getD_cons_succ, List.getD_cons_zero]
    rw [if_pos hslash, if_pos hdot, ip2int_dotted hw haddr, maskOf_decText hw hp]
  · have hpos : index (dotted addr ++ 0x2f :: decText p) 0x2f = (dotted addr).length + 1 :=
      index_append (notMem_dotted (by decide) (by decide) addr) _
    -- the address is in front of the slash
    have hfront : substr (dotted addr ++ 0x2f :: decText p) 0
        (some (((dotted addr).length + 1 : Nat) - 1)) = dotted addr := by
      have hcount :
          ((((dotted addr).length + 1 : Nat) : Int) - 1).toNat = (dotted addr).length := by
        omega
      rw [substr]
      simp only [hcount]
      exact List.take_left' rfl
    -- the length is behind it
    have hbehind : substr (dotted addr ++ 0x2f :: decText p)
        (((dotted addr).length + 1 : Nat) + 1) none = decText p := by
      have hstart : ((((dotted addr).length + 1 : Nat) : Int) + 1 - 1).toNat =
          (dotted addr).length + 1 := by
        omega
      rw [substr]
      simp only [hstart]
      rw [← List.drop_drop, List.drop_left' rfl, List.drop_one, List.tail_cons]
    simp only [parseArgv, List.getD_cons_succ, List.getD_cons_zero]
    rw [hpos, if_neg (Nat.succ_ne_zero _), hfront, hbehind, ip2int_dotted hw haddr,
      maskOf_decText hw hp]

/-! ### The range -/

def firstHost (k addr start : Nat) : Nat :=
  max (lowest k addr + 1) (lowest k addr + start % 2 ^ k)

def lastHost (k addr start count : Nat) : Nat :=
  min (firstHost k addr start + count) (highest k addr - 1)

/-- The first host is not behind the broadcast address. -/
private theorem firstHost_le {k : Nat} (hk : 1 ≤ k) (addr start : Nat) :
    firstHost k addr start ≤ highest k addr := by
  have htwo : 2 ≤ 2 ^ k := Nat.pow_le_pow_right Nat.two_pos hk
  have hhost : start % 2 ^ k < 2 ^ k := Nat.mod_lt _ (Nat.two_pow_pos k)
  rw [firstHost, highest]
  omega

/-- Each form of the arguments gives the report on the network. -/
theorem main_eq_report (hw : 32 ≤ w) {addr p start : Nat} (haddr : addr < 2 ^ 32)
    (hstart : start < 2 ^ 32) (hp : p ≤ 30) {count : Nat} {argv : List (List UInt8)}
    (h : argv ∈ argvs addr p start count) :
    main w argv = report addr p (lowest (32 - p) addr) (highest (32 - p) addr)
      (firstHost (32 - p) addr start) (lastHost (32 - p) addr start count) := by
  have hlen : argv.length > 3 := by
    rw [argvs] at h
    simp only [List.mem_cons, List.not_mem_nil, or_false] at h
    rcases h with rfl | rfl | rfl <;> exact Nat.le_of_ble_eq_true rfl
  have hvars := parseArgv_argvs hw haddr (by omega) start count h
  generalize hk : 32 - p = k at *
  have hk4 : 4 ≤ 2 ^ k := Nat.pow_le_pow_right Nat.two_pos (show 2 ≤ k by omega)
  have hhigh : highest k addr < 2 ^ 32 := highest_lt (by omega) haddr
  have hones : 2 ^ k - 1 < 2 ^ 32 := by
    rw [highest] at hhigh
    omega
  have hlow : lowest k addr < 2 ^ 32 := by
    rw [highest] at hhigh
    omega
  have hhost : start % 2 ^ k < 2 ^ k := Nat.mod_lt _ (Nat.two_pow_pos k)
  -- the bits of the host part, as the script computes them
  have hcompl : compl32 w (netmask p) = (2 ^ k - 1 : Nat) := hk ▸ compl32_netmask hw p
  have hnetwork : and w addr (netmask p) = lowest k addr := by
    rw [and_natCast (lt_two_pow hw haddr) (lt_two_pow hw (netmask_lt p)), netmask, hk,
      and_netmask (by omega) haddr]
  have hbroadcast : or w (lowest k addr) (2 ^ k - 1 : Nat) = highest k addr := by
    rw [or_natCast (lt_two_pow hw hlow) (lt_two_pow hw hones), lowest_or (by omega), highest]
  have hoffset : or w (lowest k addr) (and w start (2 ^ k - 1 : Nat)) =
      (lowest k addr + start % 2 ^ k : Nat) := by
    rw [and_natCast (lt_two_pow hw hstart) (lt_two_pow hw hones), Nat.and_two_pow_sub_one_eq_mod,
      or_natCast (lt_two_pow hw hlow) (lt_two_pow hw (by omega)), lowest_or hhost]
  rw [main, hvars]
  simp only [hcompl, hnetwork, hbroadcast, ip2int_dotted hw hstart, hoffset, num_decText]
  rw [if_pos hlen]
  -- a start outside the hosts is moved to the first one
  have hfirst : (if ((lowest k addr + start % 2 ^ k : Nat) : Int) < lowest k addr + 1 then
      (lowest k addr : Int) + 1 else (lowest k addr + start % 2 ^ k : Nat)) =
        (firstHost k addr start : Nat) := by
    rw [firstHost]
    split <;> omega
  -- and the end is cut off at the last one
  have hlast : (if (firstHost k addr start : Int) + count > highest k addr - 1 then
      (highest k addr : Int) - 1 else firstHost k addr start + count) =
        (lastHost k addr start count : Nat) := by
    have hone : 1 ≤ highest k addr := by
      rw [highest]
      omega
    rw [lastHost]
    split <;> omega
  have hfirst_lt := firstHost_le (show 1 ≤ k by omega) addr start
  have hlast_lt : lastHost k addr start count ≤ highest k addr - 1 := Nat.min_le_right _ _
  have hprefix : intText (32 - bitcount w (2 ^ k - 1 : Nat)) = decText p := by
    rw [bitcount_ones hw (by omega), intText, if_neg (by omega)]
    congr 1
    omega
  simp only [hfirst, hlast, hprefix]
  rw [int2ip_eq_dotted hw haddr, int2ip_eq_dotted hw (netmask_lt p), int2ip_eq_dotted hw hhigh,
    int2ip_eq_dotted hw hlow, int2ip_eq_dotted hw (by omega), int2ip_eq_dotted hw (by omega)]
  rfl

/-- With a host part of ones the range starts at the broadcast address. -/
theorem hostPart_ne_of_rangeOfHosts (hw : 32 ≤ w) {addr start p count : Nat}
    (haddr : addr < 2 ^ 32) (hstart : start < 2 ^ 32) (hp : p ≤ 30)
    (h : RangeOfHosts w addr p start count) : start % 2 ^ (32 - p) ≠ 2 ^ (32 - p) - 1 := by
  intro hones
  obtain ⟨lo, hi, first, last, -, hgreatest, hout, -, hle, hlt, -⟩ := h
  have hhi : hi = highest (32 - p) addr := hgreatest.unique (isGreatest_highest _ _)
  have hhigh : highest (32 - p) addr < 2 ^ 32 := highest_lt (by omega) haddr
  have hfirst_le := firstHost_le (show 1 ≤ 32 - p by omega) addr start
  have hargv : [ascii "awk", dotted addr, decText p, dotted start, decText count] ∈
      argvs addr p start count := by
    simp [argvs]
  -- the report of the program is compared with the one it should print
  have hsame := (hout _ hargv).symm.trans (main_eq_report hw haddr hstart hp hargv)
  simp only [report, List.cons.injEq, List.append_cancel_left_eq, and_true] at hsame
  have hfirst := dotted_inj (by omega) (by omega) hsame.2.2.2.2.2.1
  rw [firstHost, hones] at hfirst
  rw [highest] at hhi
  omega

/-- The range consists of hosts exactly if the host part of the start offset is not all ones. -/
theorem rangeOfHosts_iff (w : Nat) (hw : 32 ≤ w) (addr start p count : Nat)
    (haddr : addr < 2 ^ 32) (hstart : start < 2 ^ 32) (hp : p ≤ 30) :
    RangeOfHosts w addr p start count ↔ start % 2 ^ (32 - p) ≠ 2 ^ (32 - p) - 1 := by
  constructor
  · exact hostPart_ne_of_rangeOfHosts hw haddr hstart hp
  · intro hones
    have hk4 : 4 ≤ 2 ^ (32 - p) := Nat.pow_le_pow_right Nat.two_pos (show 2 ≤ 32 - p by omega)
    have hhost : start % 2 ^ (32 - p) < 2 ^ (32 - p) := Nat.mod_lt _ (Nat.two_pow_pos _)
    refine ⟨_, _, _, _, isLeast_lowest _ _, isGreatest_highest _ _,
      fun argv h => main_eq_report hw haddr hstart hp h, ?_⟩
    rw [lastHost, firstHost, highest]
    omega

/-- 192.168.1.100 to 192.168.1.249. -/
theorem rangeOfHosts_iff_sample : RangeOfHosts 64 0xc0a80101 24 100 150 :=
  (rangeOfHosts_iff 64 (by decide) 0xc0a80101 100 24 150 (by decide) (by decide)
    (by decide)).mpr (by decide)

/-- An offset whose host part is ones: the start is the broadcast address, and the end is in front
    of it. -/
theorem broadcast_start :
    main 64 [ascii "awk", ascii "192.168.1.1", ascii "24", ascii "0.0.0.255", ascii "10"] =
      [ascii "IP=192.168.1.1", ascii "NETMASK=255.255.255.0", ascii "BROADCAST=192.168.1.255",
        ascii "NETWORK=192.168.1.0", ascii "PREFIX=24", ascii "START=192.168.1.255",
        ascii "END=192.168.1.254"] ∧
      ¬RangeOfHosts 64 0xc0a80101 24 255 10 := by
  refine ⟨by decide, fun h => ?_⟩
  exact hostPart_ne_of_rangeOfHosts (by decide) (by decide) (by decide) (by decide) h (by decide)

end HandsomeMod.Native.Ipcalc
