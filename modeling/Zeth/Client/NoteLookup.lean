import Zeth.Client.Ledger

/-!
# Looking for a note

A user names a note by its address in decimal or by the first four bytes of its commitment in
hexadecimal (`Wallet.find_note` of `client/zeth/core/wallet.py`). Which of the two a text is, is
guessed from its length: a text of five characters or more is taken for a commitment.

So a note is always found by its commitment, and it is found by its address exactly when the address
is below `10000`, or happens to be the start of its own commitment (`Wallet.findsNotes_iff`). A text
of eight digits can name an address and be the start of the commitment of another note, which is then
returned.

## Main definitions

* `Stdlib.ReadsAddresses`: what is assumed of `glob` and `int` for addresses.
* `Wallet.findNote`, `Wallet.HoldsNotes`, `Wallet.FindsNotes`.

## Main results

* `Wallet.findNote_address`, `Wallet.findNote_key`: what is found for a short text and for a long one.
* `Wallet.findsNotes_iff`: which notes are found.
-/

namespace Zeth.Client

open ByteString Python List

/-- A pattern with an asterisk at its end matches the names that start with the rest, and the decimal
digits of a number read back. -/
structure Stdlib.ReadsAddresses (L : Stdlib) : Prop where
  fnmatch_start_iff : ∀ start, Literal start → ∀ name,
    L.fnmatch (start ++ "*") name = true ↔ ∃ x, name = start ++ x
  int_toString : ∀ n : ℕ, L.int (toString n) = .ok n

namespace Wallet

variable {C : Cryptography} (L : Stdlib) (W : Web3)

/-- `find_note`. -/
def findNote (w : Wallet C) (noteId : String) : Except Exc ZethNoteDescription :=
  match findNoteFile L w noteId with
  | none => .error (.exception ("no note with id " ++ noteId))
  | some noteFile =>
    match w.disk.noteFiles.lookup noteFile with
    | some noteDesc => .ok noteDesc
    | none => .error (.exception ("No such file or directory: '" ++ noteFile ++ "'"))

/-- The wallet holds the notes with the property, which have different addresses below `2 ^ 32` and
different short commitments. -/
structure HoldsNotes (w : Wallet C) (P : ZethNoteDescription → Prop) : Prop where
  files : Keyed (w.owner.noteName W) w.disk.noteFiles P
  own : ∀ d, P d → Owner.IsOwn d
  address_lt : ∀ d, P d → d.address < 2 ^ 32
  address_inj : ∀ d d', P d → P d' → d.address = d'.address → d = d'
  commitment_inj : ∀ d d', P d → P d' →
    shortCommitment d.commitment = shortCommitment d'.commitment → d = d'

/-- Every note is found by its address and by its short commitment. -/
def FindsNotes (w : Wallet C) (P : ZethNoteDescription → Prop) : Prop :=
  ∀ d, P d → findNote L w (toString d.address) = .ok d ∧
    findNote L w (shortCommitment d.commitment) = .ok d

variable {L W} {w : Wallet C} {P : ZethNoteDescription → Prop}

/-! ### Files that match a pattern -/

/-- When a pattern matches the files of at most one note, this note is what is found. -/
theorem findNote_eq_ok_iff (hfiles : Keyed (w.owner.noteName W) w.disk.noteFiles P)
    {key wildcard : String} (hfind : findNoteFile L w key = globOne L w wildcard)
    (Q : ZethNoteDescription → Prop)
    (hmatch : ∀ d, P d → (L.fnmatch wildcard (w.owner.noteName W d) = true ↔ Q d))
    (hunique : ∀ d d', P d → P d' → Q d → Q d' → d' = d) (d : ZethNoteDescription) :
    findNote L w key = .ok d ↔ P d ∧ Q d := by
  by_cases hex : ∃ d₀, P d₀ ∧ Q d₀
  · obtain ⟨d₀, hd₀, hQ⟩ := hex
    have hcandidates := hfiles.filter_keys_of_unique hd₀ ((hmatch d₀ hd₀).mpr hQ) fun d' hd' h =>
      hunique d₀ d' hd₀ hd' hQ ((hmatch d' hd').mp h)
    have hfile : findNoteFile L w key = some (w.owner.noteName W d₀) := by
      rw [hfind, globOne, hcandidates]
      rfl
    simp only [findNote, hfile, hfiles.lookup hd₀]
    constructor
    · intro h
      cases h
      exact ⟨hd₀, hQ⟩
    · rintro ⟨hd, hQd⟩
      rw [hunique d₀ d hd₀ hd hQ hQd]
  · have hcandidates : (w.disk.noteFiles.map Prod.fst).filter (L.fnmatch wildcard) = [] := by
      refine filter_eq_nil_iff.mpr fun name hname h => hex ?_
      obtain ⟨d', hd', rfl⟩ := hfiles.mem_keys_iff.mp hname
      exact ⟨d', hd', (hmatch d' hd').mp h⟩
    have hfile : findNoteFile L w key = none := by
      rw [hfind, globOne, hcandidates]
      rfl
    simp only [findNote, hfile]
    constructor
    · intro h
      cases h
    · intro h
      exact absurd ⟨d, h⟩ hex

/-! ### Short and long texts -/

theorem literal_digits (n : ℕ) : Literal (toString n) ∧ '_' ∉ (toString n).toList := by
  rw [Literal, Nat.toString_eq_ofList_toDigits, String.toList_ofList]
  refine ⟨fun c hc => ?_, Nat.underscore_not_in_toDigits⟩
  have hdigit := Nat.isDigit_of_mem_toDigits (by norm_num) (by norm_num) hc
  refine ⟨?_, ?_, ?_, ?_⟩ <;>
  · rintro rfl
    exact absurd hdigit (by decide)

theorem length_toString_lt_iff (n : ℕ) : (toString n).length < 5 ↔ n < 10000 := by
  rw [Nat.lt_succ_iff]
  exact Nat.length_repr_le_iff (by norm_num)

theorem literal_format04d (n : ℕ) : Literal (format04d n) := by
  rw [format04d]
  refine Literal.append (fun c hc => ?_) (literal_digits n).1
  rw [String.toList_ofList] at hc
  rw [eq_of_mem_replicate hc]
  decide

/-- The pattern of an address matches the file of the note at that address. -/
theorem fnmatch_noteName_address (hL : L.ReadsAddresses) {o : Owner C} (husername : Literal o.username)
    (hvalue : W.Numeral) {d : ZethNoteDescription} (hd : d.note.IsHex) (n : ℕ) :
    L.fnmatch ("note_" ++ o.username ++ "_" ++ format04d n ++ "_*") (o.noteName W d) = true ↔
      d.address = n := by
  have hwildcard : "note_" ++ o.username ++ "_" ++ format04d n ++ "_*" =
      ("note_" ++ o.username ++ "_" ++ format04d n ++ "_") ++ "*" := by
    apply String.toList_inj.mp
    simp only [String.toList_append, append_assoc]
    rfl
  have hstart : Literal ("note_" ++ o.username ++ "_" ++ format04d n ++ "_") :=
    ((((by decide : Literal "note_").append husername).append (by decide)).append
      (literal_format04d n)).append (by decide)
  obtain ⟨value, -, hname⟩ := Owner.exists_toList_noteName (o := o) hvalue hd
  rw [hwildcard, hL.fnmatch_start_iff _ hstart]
  constructor
  · rintro ⟨x, hx⟩
    have hlist : (o.noteName W d).toList = ("note_" ++ o.username ++ "_").toList ++
        ((format04d n).toList ++ '_' :: x.toList) := by
      rw [hx]
      simp only [String.toList_append, append_assoc]
      rfl
    have haddr := append_cons_left_inj (underscore_notMem_format04d _)
      (underscore_notMem_format04d _) (append_cancel_left (hname.symm.trans hlist))
    exact format04d_injective (String.toList_inj.mp haddr.1)
  · rintro rfl
    refine ⟨shortCommitment d.commitment ++ "_" ++ String.ofList value, String.toList_inj.mp ?_⟩
    rw [hname]
    simp only [String.toList_append, append_assoc, String.toList_ofList]
    rfl

section Find

variable (hholds : HoldsNotes W w P) (husername : Literal w.username) (hvalue : W.Numeral)

include hholds husername hvalue

/-- A text of up to four digits finds the note at that address. -/
theorem findNote_address (hL : L.ReadsAddresses) {n : ℕ} (hn : n < 10000)
    (d : ZethNoteDescription) : findNote L w (toString n) = .ok d ↔ P d ∧ d.address = n := by
  have hfind : findNoteFile L w (toString n) =
      globOne L w ("note_" ++ w.owner.username ++ "_" ++ format04d n ++ "_*") := by
    rw [findNoteFile, if_pos ((length_toString_lt_iff n).mpr hn), hL.int_toString]
    rfl
  refine findNote_eq_ok_iff hholds.files hfind (fun d => d.address = n) (fun d' hd' => ?_)
    (fun d₁ d₂ h₁ h₂ hQ₁ hQ₂ => ?_) d
  · exact fnmatch_noteName_address hL husername hvalue (hholds.own d' hd').isHex n
  · exact hholds.address_inj d₂ d₁ h₂ h₁ (hQ₂.trans hQ₁.symm)

/-- A text of five characters or more finds the note with that short commitment. -/
theorem findNote_key {key : String} (hlength : ¬ key.length < 5) (hkey : Literal key)
    (hkey' : '_' ∉ key.toList) (d : ZethNoteDescription) :
    findNote L w key = .ok d ↔ P d ∧ shortCommitment d.commitment = key := by
  have hfind : findNoteFile L w key =
      globOne L w ("note_" ++ w.owner.username ++ "_*_" ++ key ++ "_*") := by
    rw [findNoteFile, if_neg hlength]
    rfl
  refine findNote_eq_ok_iff hholds.files hfind (fun d => shortCommitment d.commitment = key)
    (fun d' hd' => ?_) (fun d₁ d₂ h₁ h₂ hQ₁ hQ₂ => ?_) d
  · exact Owner.fnmatch_noteName_key L husername hvalue (hholds.own d' hd').isHex hkey hkey'
  · exact hholds.commitment_inj d₂ d₁ h₂ h₁ (hQ₂.trans hQ₁.symm)

theorem findNote_shortCommitment {d : ZethNoteDescription} (hd : P d) :
    findNote L w (shortCommitment d.commitment) = .ok d := by
  have hlength : ¬ (shortCommitment d.commitment).length < 5 := by
    rw [shortCommitment, length_hex, length_take, (hholds.own d hd).length]
    decide
  exact (findNote_key hholds husername hvalue hlength (literal_hex _) (underscore_notMem_hex _)
    d).mpr ⟨hd, rfl⟩

/-- The note at an address is found by it if the address is short, or the start of the commitment of
the note. -/
theorem findNote_toString_address (hL : L.ReadsAddresses) {d : ZethNoteDescription} (hd : P d) :
    findNote L w (toString d.address) = .ok d ↔
      d.address < 10000 ∨ shortCommitment d.commitment = toString d.address := by
  by_cases hn : d.address < 10000
  · rw [findNote_address hholds husername hvalue hL hn]
    exact ⟨fun _ => .inl hn, fun _ => ⟨hd, rfl⟩⟩
  · rw [findNote_key hholds husername hvalue (mt (length_toString_lt_iff _).mp hn)
      (literal_digits _).1 (literal_digits _).2]
    exact ⟨fun h => .inr h.2, fun h => ⟨hd, h.resolve_left hn⟩⟩

/-- **Finding notes.** A note is always found by its short commitment, and by its address if and only
if the address is below `10000` or the start of the commitment of the note. So all notes are found by
both if and only if this is so for every address. -/
theorem findsNotes_iff (hL : L.ReadsAddresses) :
    (∀ d, P d → findNote L w (shortCommitment d.commitment) = .ok d ∧
      (findNote L w (toString d.address) = .ok d ↔
        d.address < 10000 ∨ shortCommitment d.commitment = toString d.address)) ∧
    (FindsNotes L w P ↔
      ∀ d, P d → d.address < 10000 ∨ shortCommitment d.commitment = toString d.address) := by
  have hkey {d : ZethNoteDescription} (hd : P d) :=
    findNote_shortCommitment (L := L) hholds husername hvalue hd
  have haddress {d : ZethNoteDescription} (hd : P d) :=
    findNote_toString_address hholds husername hvalue hL hd
  refine ⟨fun d hd => ⟨hkey hd, haddress hd⟩, forall₂_congr fun d hd => ?_⟩
  rw [haddress hd]
  exact and_iff_left (hkey hd)

end Find

/-! ### Two wallets -/

section Plain

/-- The files of notes at different addresses. -/
theorem keyed_map_file (hvalue : W.Numeral) {o : Owner C} {notes : List ZethNoteDescription}
    (hown : ∀ d ∈ notes, Owner.IsOwn d) (hnodup : (notes.map fun d => d.address).Nodup) :
    Keyed (o.noteName W) (notes.map (o.file W)) (· ∈ notes) := by
  constructor
  · rw [map_map]
    refine List.Nodup.map_on (fun d hd d' hd' h => ?_) (List.Nodup.of_map _ hnodup)
    exact inj_on_of_nodup_map hnodup hd hd'
      (Owner.noteName_inj hvalue (hown d hd).isHex (hown d' hd').isHex h)
  · rintro ⟨name, d⟩
    rw [mem_map]
    constructor
    · rintro ⟨d', hd', h⟩
      obtain ⟨rfl, rfl⟩ := Prod.mk.inj h
      exact ⟨rfl, hd'⟩
    · rintro ⟨hname, hd⟩
      exact ⟨d, hd, Prod.ext hname.symm rfl⟩

/-- A library that reads numerals. -/
def decimalStdlib : Stdlib := { plainStdlib with int := decimalInt }

theorem readsAddresses_decimalStdlib : decimalStdlib.ReadsAddresses where
  fnmatch_start_iff start hstart name := by
    have hstar : '*' ∉ start.toList := fun h => (hstart '*' h).1 rfl
    change globMatch (start ++ "*").toList name.toList = true ↔ _
    rw [String.toList_append, globMatch_append hstar]
    constructor
    · rintro ⟨y, hname, -⟩
      refine ⟨String.ofList y, String.toList_inj.mp ?_⟩
      rw [hname, String.toList_append, String.toList_ofList]
    · rintro ⟨x, rfl⟩
      refine ⟨x.toList, String.toList_append, ?_⟩
      exact (globMatch_star _ _).mpr ⟨x.toList, [], (append_nil _).symm, (globMatch_nil _).mpr rfl⟩
  int_toString := decimalInt_toString

/-- A note without value. -/
def plainDesc (address : ℕ) (start : Byte) : ZethNoteDescription where
  note := ⟨hex zeroEntry, hex (List.replicate 8 0), hex zeroEntry, hex zeroEntry⟩
  address := address
  commitment := start :: List.replicate 31 0

/-- An owner without secrets. -/
def aliceOwner : Owner plainCryptography := ⟨"alice", zeroEntry, ()⟩

/-- A wallet with the files of notes. -/
def plainHolder (notes : List ZethNoteDescription) : Wallet plainCryptography where
  username := "alice"
  aSk := zeroEntry
  kSkReceiver := ()
  state := ⟨1, 0, []⟩
  merkleTree := .new ⟨0, [], []⟩ 0
  merkleTreeChanged := false
  nextAddr := 0
  disk := { Disk.empty with noteFiles := notes.map (aliceOwner.file plainWeb3) }
  journal := []

theorem isOwn_plainDesc (address : ℕ) (start : Byte) : Owner.IsOwn (plainDesc address start) :=
  ⟨⟨⟨_, rfl⟩, ⟨_, rfl, rfl⟩, ⟨_, rfl⟩, ⟨_, rfl⟩⟩, rfl⟩

/-- A wallet with a note at the given address and one at address `0`, whose commitments start with
the bytes `0` and `16`. -/
theorem holdsNotes_plainHolder (address : ℕ) (hpos : 0 < address) (hlt : address < 2 ^ 32) :
    HoldsNotes plainWeb3 (plainHolder [plainDesc address 0, plainDesc 0 0x10])
      (· ∈ [plainDesc address 0, plainDesc 0 0x10]) := by
  have hown : ∀ d ∈ [plainDesc address 0, plainDesc 0 0x10], Owner.IsOwn d := by
    intro d hd
    rcases mem_pair.mp hd with rfl | rfl
    · exact isOwn_plainDesc address 0
    · exact isOwn_plainDesc 0 0x10
  have haddress : ([plainDesc address 0, plainDesc 0 0x10].map fun d => d.address).Nodup := by
    simp [plainDesc, hpos.ne']
  have hcommitment : ([plainDesc address 0, plainDesc 0 0x10].map fun d =>
      shortCommitment d.commitment).Nodup := by
    change ["00000000", "10000000"].Nodup
    decide
  refine ⟨keyed_map_file numeral_plainWeb3 hown haddress, hown, fun d hd => ?_, fun d d' hd hd' h => ?_,
    fun d d' hd hd' h => ?_⟩
  · rcases mem_pair.mp hd with rfl | rfl
    · exact hlt
    · exact Nat.two_pow_pos 32
  · exact inj_on_of_nodup_map haddress hd hd' h
  · exact inj_on_of_nodup_map hcommitment hd hd' h

/-- The note at address `9999` and the one at address `0`. -/
theorem findsNotes_below_ten_thousand :
    FindsNotes decimalStdlib (plainHolder [plainDesc 9999 0, plainDesc 0 0x10])
      (· ∈ [plainDesc 9999 0, plainDesc 0 0x10]) := by
  refine (findsNotes_iff (holdsNotes_plainHolder 9999 (by norm_num) (by norm_num)) (by decide)
    numeral_plainWeb3 readsAddresses_decimalStdlib).2.mpr fun d hd => .inl ?_
  rcases mem_pair.mp hd with rfl | rfl
  · exact Nat.lt_succ_self 9999
  · exact Nat.zero_lt_succ 9999

/-- The address `10000000` is the start of the commitment of the note at address `0`, and this note
is found for it. -/
theorem findNote_returns_other_note :
    HoldsNotes plainWeb3 (plainHolder [plainDesc 10000000 0, plainDesc 0 0x10])
      (· ∈ [plainDesc 10000000 0, plainDesc 0 0x10]) ∧
    findNote decimalStdlib (plainHolder [plainDesc 10000000 0, plainDesc 0 0x10]) "10000000" =
      .ok (plainDesc 0 0x10) ∧
    ¬ FindsNotes decimalStdlib (plainHolder [plainDesc 10000000 0, plainDesc 0 0x10])
      (· ∈ [plainDesc 10000000 0, plainDesc 0 0x10]) := by
  have hholds : HoldsNotes plainWeb3 _ _ :=
    holdsNotes_plainHolder 10000000 (by norm_num) (by norm_num)
  have hfound : findNote decimalStdlib (plainHolder [plainDesc 10000000 0, plainDesc 0 0x10])
      "10000000" = .ok (plainDesc 0 0x10) :=
    (findNote_key hholds (by decide) numeral_plainWeb3 (by decide) (by decide) (by decide) _).mpr
      ⟨mem_pair.mpr (.inr rfl), rfl⟩
  refine ⟨hholds, hfound, fun h => ?_⟩
  have hother := (h (plainDesc 10000000 0) (mem_pair.mpr (.inl rfl))).1
  have hid : toString (plainDesc 10000000 0).address = "10000000" := rfl
  rw [hid, hfound] at hother
  cases congrArg ZethNoteDescription.address (Except.ok.inj hother)

end Plain

end Wallet

end Zeth.Client
