import OS2021.Fs.Inode

/-! Reading back what the inode layer writes into blocks: entries, addresses, file bytes. -/
namespace OS2021.Fs
open Lib

variable {d : BlockData} {e : InodeEntry} {i j k : Nat} {src : List UInt8}

/-! ### Inode entries -/

namespace InodeEntry

theorem ofBytes_congr {f g : Nat → UInt8} (h : ∀ k < inodeEntrySize, f k = g k) : ofBytes f = ofBytes g := by
  have hword : ∀ w n, w * n + w ≤ inodeEntrySize → wordAt w f n = wordAt w g n := fun w n hn =>
    wordAt_congr fun k hk => h _ (by omega)
  have haddr : ∀ a : Fin inodeNumDirect, wordAt 4 f (3 + a) = wordAt 4 g (3 + a) := fun a => by
    have hlt : (a : Nat) < 12 := a.isLt
    apply hword
    show 4 * (3 + (a : Nat)) + 4 ≤ 64
    omega
  simp only [ofBytes, hword 2 0 (by decide), hword 2 1 (by decide), hword 2 2 (by decide), hword 2 3 (by decide),
    hword 4 2 (by decide), hword 4 15 (by decide), haddr]

theorem half_toBytes (h : k < 4) : wordAt 2 e.toBytes k = (e.half k).toNat := by
  have hread : wordAt 2 e.toBytes k = wordAt 2 (ofWords 2 fun k => (e.half k).toNat) k :=
    wordAt_congr fun l hl => by rw [toBytes, if_pos (by omega)]
  rw [hread, wordAt_ofWords]
  exact Nat.mod_eq_of_lt (e.half k).toNat_lt

theorem word_toBytes (h : 2 ≤ k) : wordAt 4 e.toBytes k = (e.word k).toNat := by
  have hread : wordAt 4 e.toBytes k = wordAt 4 (ofWords 4 fun k => (e.word k).toNat) k :=
    wordAt_congr fun l hl => by rw [toBytes, if_neg (by omega)]
  rw [hread, wordAt_ofWords]
  exact Nat.mod_eq_of_lt (e.word k).toNat_lt

theorem ofBytes_toBytes (e : InodeEntry) : ofBytes e.toBytes = e := by
  have haddr : ∀ a : Fin inodeNumDirect, e.word (3 + a) = e.addrs a := fun a => by
    have hlt := a.isLt
    have hk : 3 + (a : Nat) - 3 = a := by omega
    rw [word, if_neg (by omega), dif_pos (by omega)]
    exact congrArg e.addrs (Fin.ext hk)
  have hlast : e.word 15 = e.indirect := rfl
  ext1
  all_goals simp only [ofBytes]
  case addrs =>
    funext a
    rw [word_toBytes (by omega), haddr, UInt32.ofNat_toNat]
  case indirect => rw [word_toBytes (by decide), hlast, UInt32.ofNat_toNat]
  case numBytes =>
    rw [word_toBytes (by decide), UInt32.ofNat_toNat]
    rfl
  all_goals
    rw [half_toBytes (by decide), UInt16.ofNat_toNat]
    rfl

end InodeEntry

theorem getEntry_setEntry (d : BlockData) (i j : Nat) (e : InodeEntry) :
    getEntry (setEntry d i e) j = if j % inodePerBlock = i % inodePerBlock then e else getEntry d j := by
  have hslot : ∀ k < inodeEntrySize, inodeEntrySize * (j % inodePerBlock) + k < blockSize := fun k hk => by
    have hmod : j % 8 < 8 := Nat.mod_lt j (by decide)
    have hk' : k < 64 := hk
    show 64 * (j % 8) + k < 512
    omega
  have hread : ∀ k < inodeEntrySize, bytes (setEntry d i e) (inodeEntrySize * (j % inodePerBlock) + k) =
      if j % inodePerBlock = i % inodePerBlock then e.toBytes k
      else bytes d (inodeEntrySize * (j % inodePerBlock) + k) := fun k hk => by
    rw [bytes_of_lt (hslot k hk), bytes_of_lt (hslot k hk), setEntry]
    have hdiv : (inodeEntrySize * (j % inodePerBlock) + k) / inodeEntrySize = j % inodePerBlock := by
      rw [Nat.mul_add_div (by decide), Nat.div_eq_of_lt hk, Nat.add_zero]
    have hmod : (inodeEntrySize * (j % inodePerBlock) + k) % inodeEntrySize = k := by
      rw [Nat.mul_add_mod, Nat.mod_eq_of_lt hk]
    rw [hdiv, hmod]
  rw [getEntry, InodeEntry.ofBytes_congr hread]
  split
  case isTrue => exact InodeEntry.ofBytes_toBytes e
  case isFalse => rfl

/-! ### Addresses in an indirect block -/

theorem getAddr_setAddr (d : BlockData) (i j : Nat) (a : UInt32) (hj : j < inodeNumIndirect) :
    getAddr (setAddr d i a) j = if j = i then a else getAddr d j := by
  have hread : wordAt 4 (bytes (setAddr d i a)) j = wordAt 4 (setWord 4 (bytes d) i a.toNat) j :=
    wordAt_congr fun k hk => by
      have hj' : j < 128 := hj
      have hlt : 4 * j + k < 512 := by omega
      rw [bytes_of_lt hlt, setAddr]
  rw [getAddr, hread, wordAt_setWord]
  split
  case isTrue =>
    have hmod : a.toNat % 256 ^ 4 = a.toNat := Nat.mod_eq_of_lt a.toNat_lt
    rw [hmod, UInt32.ofNat_toNat]
  case isFalse => rfl

theorem bytes_zeroBlock : bytes zeroBlock = fun _ => 0 := by
  funext k
  rw [bytes]
  split <;> rfl

theorem getAddr_zeroBlock (j : Nat) : getAddr zeroBlock j = 0 := by
  have hzero : ∀ n, leNat n (fun _ => (0 : UInt8)) = 0 := fun n => by
    induction n with
    | zero => rfl
    | succ n ih => rw [leNat, ih]; rfl
  rw [getAddr, bytes_zeroBlock, wordAt, hzero]
  rfl

/-! ### File bytes -/

theorem bytes_overwrite (h : j < blockSize) : bytes (overwrite d i src) j =
    if i ≤ j ∧ j < i + src.length then src.getD (j - i) 0 else bytes d j := by
  rw [bytes_of_lt h, bytes_of_lt h, overwrite]

end OS2021.Fs
