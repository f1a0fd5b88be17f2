import Netpp.Protobuf.Isolation

/-! # The type name of a frame

`fillEmptyBuffer` counts the terminating zero in the name field.  `parse` makes a
`std::string` of the whole field, so the string it passes to `createMessage` ends
with the zero: it has the `c_str()` of the type name, and it is not the type name.
-/

namespace Netpp

namespace ProtobufCodec

/-- The string that `parse` passes to `createMessage`, if it comes to that. -/
def passedTypeName (buf : Buffer) : Exec (Option Bytes) := do
  let r ← parseWith some (fun name buf => pure (name, buf)) buf .kNoError
  pure r.1.1

section Generic

variable {μ α : Type}

/-- The lookup of `parse` is made for the string that is passed, and for no other. -/
theorem parseWith_factors (lookup : Bytes → Option μ) (read : μ → Buffer → Exec (α × Buffer))
    (b : Buffer) (error : ErrorCode) :
    parseWith lookup read b error = (do
      let r ← parseWith some (fun name buf => pure (name, buf)) b error
      match r.1.1 with
      | some name =>
        match lookup name with
        | some message =>
          let parsed ← read message r.2
          pure ((some parsed.1, error), parsed.2)
        | none => pure ((none, .kUnknownMessageType), r.2)
      | none => pure ((none, r.1.2), r.2)) := by
  simp only [parseWith, bind_assoc, pure_bind]
  refine bind_congr fun r => ?_
  split
  · split
    · refine Eq.trans ?_ (bind_assoc (r.2.readString r.1.toNat) _ _).symm
      refine bind_congr fun name => Eq.trans ?_ (pure_bind _ _).symm
      cases hlookup : lookup name.1 with
      | none => simp only [hlookup]
      | some message => simp only [hlookup]
    · rfl
  · rfl

end Generic

section Name

variable {build : Build} {m m' m₂ : Mem} {b b' r : Buffer} {rest rest₂ qs : List Ptr} {k k₂ : Nat}
  {typeName payload tail d : Bytes}

def decodeTypeName (d : Bytes) : Option Bytes := (decodeHead some d).1.toOption

theorem passedTypeName_spec (build : Build) (hb : b.Rep m qs) (howns : Owns m (qs ++ rest) k)
    (hlen : 4 ≤ b.length) :
    (passedTypeName b).wp build m fun name _ => name = decodeTypeName (content m qs) := by
  simp only [passedTypeName, Prog.wp_bind, Prog.wp_pure]
  obtain ⟨b₁, m₁, ps₁, _, hrun⟩ := parseWith_run build some (fun name buf => pure (name, buf))
    .kNoError hb howns hlen
  rw [Prog.wp_congr hrun, decodeTypeName]
  cases (decodeHead some (content m qs)).1 with
  | error code =>
    rw [Prog.wp_pure]
    rfl
  | ok name =>
    simp only [Prog.wp_bind, Prog.wp_pure]
    rfl

theorem bytesInt_nameLen (typeName : Bytes) : bytesInt (intBytes 4 (nameLen typeName)) = nameLen typeName := by
  have hlt : u32 (typeName.length + 1) < 4294967296 := Nat.mod_lt _ (by decide)
  rw [bytesInt, length_intBytes, intBytes, ofBigEndian_bigEndian, nameLen]
  generalize u32 (typeName.length + 1) = w at hlt
  have h32 : (2 : Int) ^ 32 = 4294967296 := rfl
  have hword : unsignedWord 32 (signedWord 32 w) = w := by
    unfold unsignedWord signedWord
    rw [h32]
    split <;> omega
  have hmod : w % 256 ^ 4 = w := Nat.mod_eq_of_lt hlt
  exact congrArg (signedWord 32) ((congrArg (· % 256 ^ 4) hword).trans hmod)

theorem signedWord_of_pos {w : Nat} (hw : w < 4294967296) (h : 0 < signedWord 32 w) :
    signedWord 32 w = w ∧ w < 2147483648 := by
  have h32 : (2 : Int) ^ 32 = 4294967296 := rfl
  unfold signedWord at *
  rw [h32] at *
  split at h <;> omega

theorem nameLen_bounds (h : 0 < nameLen typeName) :
    (nameLen typeName).toNat ≤ typeName.length + 1 ∧ (nameLen typeName).toNat ≠ typeName.length ∧
      unsignedWord 64 (nameLen typeName) = (nameLen typeName).toNat := by
  obtain ⟨hword, hsmall⟩ := signedWord_of_pos (Nat.mod_lt _ (by decide)) h
  have hname : nameLen typeName = (u32 (typeName.length + 1) : Nat) := hword
  rw [hname, unsignedWord_natCast, Int.toNat_natCast]
  simp only [u32] at hsmall ⊢
  omega

theorem decodeTypeName_frame (hd : d = frameBody typeName payload ++ tail) (hpos : 0 < nameLen typeName) :
    decodeTypeName d = some (nameField typeName) := by
  obtain ⟨hle, _, hword⟩ := nameLen_bounds hpos
  have hfield : (nameField typeName).length = (nameLen typeName).toNat := by
    rw [nameField, hword, List.length_take, List.length_append, List.length_singleton,
      Nat.min_eq_left hle]
  have htake : d.take 4 = intBytes 4 (nameLen typeName) := by
    rw [hd, frameBody, List.append_assoc, List.append_assoc]
    exact List.take_left' (length_intBytes 4 _)
  have hdrop : d.drop 4 = nameField typeName ++ (BufferOutputStream.serialized payload ++ tail) := by
    rw [hd, frameBody, List.append_assoc, List.append_assoc]
    exact List.drop_left' (length_intBytes 4 _)
  have hlen : (nameLen typeName).toNat ≤ d.length - 4 := by
    rw [← List.length_drop, hdrop, List.length_append, hfield]
    omega
  simp only [decodeTypeName, decodeHead, htake, bytesInt_nameLen, if_pos hpos, if_pos hlen, hdrop,
    List.take_left' hfield]
  rfl

/-- Whatever the type name is, it is not what comes out of its frame. -/
theorem decodeTypeName_ne (hd : d = frameBody typeName payload ++ tail) :
    decodeTypeName d ≠ some typeName := by
  by_cases hpos : 0 < nameLen typeName
  · obtain ⟨hle, hne, hword⟩ := nameLen_bounds hpos
    rw [decodeTypeName_frame hd hpos]
    intro heq
    have hlength := congrArg List.length (Option.some.inj heq)
    rw [nameField, hword, List.length_take, List.length_append, List.length_singleton,
      Nat.min_eq_left hle] at hlength
    exact hne hlength
  · -- the decoder finds the name field invalid
    have htake : d.take 4 = intBytes 4 (nameLen typeName) := by
      rw [hd, frameBody, List.append_assoc, List.append_assoc]
      exact List.take_left' (length_intBytes 4 _)
    simp [decodeTypeName, decodeHead, htake, bytesInt_nameLen, if_neg hpos, Except.toOption]

/-- For every type name, every payload and every fragmentation of the frame, with or without
    more bytes behind it: the string passed to `createMessage` is not the type name.  If
    the length of the name fits into the field, it is the name with its zero. -/
theorem type_name_never_passed (receiver : Build) (hb : b.Rep m []) (howns : Owns m rest k)
    (hsent : fillFrame b typeName payload build m = .ok (b', m')) (hr : r.Rep m₂ qs)
    (hrowns : Owns m₂ (qs ++ rest₂) k₂)
    (hwhole : content m₂ qs = (content m' (b'.pieces m')).drop kHeaderLen ++ tail) :
    (passedTypeName r).wp receiver m₂ fun name _ => name ≠ some typeName ∧
      (typeName.length + 1 ≤ 2147483647 → name = some (typeName ++ [0])) := by
  obtain ⟨ps, hrep, howns', _, hcontent, _⟩ := fillFrame_ok hb howns hsent
  have hpieces : b'.pieces m' = ps := hrep.holds.rep.pieces_eq fun p hp => howns'.live (by simp [hp])
  have hbody : content m₂ qs = frameBody typeName payload ++ tail := by
    rw [hwhole, hpieces, hcontent, frame, kHeaderLen, List.drop_left' (length_intBytes 4 _)]
  have hlen : 4 ≤ r.length := by
    rw [hr.length, hbody, frameBody]
    simp only [List.length_append, length_intBytes]
    omega
  refine (passedTypeName_spec receiver hr hrowns hlen).imp ?_
  intro name _ hname
  refine ⟨hname ▸ decodeTypeName_ne hbody, fun hlimit => ?_⟩
  obtain ⟨hnameLen, hnameField⟩ := nameLen_of_limits hlimit
  rw [hname, decodeTypeName_frame hbody (by rw [hnameLen]; omega), hnameField]

/-- A type with a one-letter name. -/
theorem type_name_never_passed_letter :
    ∃ b' m' m₂ r, fillFrame {} [65] [1, 2] .release emptyMem = .ok (b', m') ∧
      (passedTypeName r).wp .debug m₂ fun name _ => name = some [65, 0] := by
  have howns : Owns emptyMem [] 0 := Owns.initial _
  obtain ⟨b', m', hsent⟩ : ∃ b' m', fillFrame {} [65] [1, 2] .release emptyMem = .ok (b', m') :=
    fillFrame_release (Buffer.Rep.empty _) howns (by decide)
  obtain ⟨m₂, r, qs, hr, hrowns, _, hc⟩ := exists_buffer ((content m' (b'.pieces m')).drop kHeaderLen)
  refine ⟨b', m', m₂, r, hsent, ?_⟩
  refine (type_name_never_passed .debug (Buffer.Rep.empty _) howns hsent hr hrowns
    (hc.trans (List.append_nil _).symm)).imp ?_
  intro name _ ⟨_, hname⟩
  exact hname (by decide)

/-- The frame of a `Hello` message: six bytes are passed for a name of five. -/
theorem hello_not_passed :
    ¬ ∀ (typeName payload : Bytes) (build receiver : Build) (m m' m₂ : Mem) (b b' r : Buffer)
      (rest rest₂ qs : List Ptr) (k k₂ : Nat), 0 ∉ typeName → b.Rep m [] → Owns m rest k →
      fillFrame b typeName payload build m = .ok (b', m') → r.Rep m₂ qs → Owns m₂ (qs ++ rest₂) k₂ →
      content m₂ qs = (content m' (b'.pieces m')).drop kHeaderLen →
      (passedTypeName r).wp receiver m₂ fun name _ => name = some typeName := by
  intro hclaim
  have howns : Owns emptyMem [] 0 := Owns.initial _
  obtain ⟨b', m', hsent⟩ : ∃ b' m', fillFrame {} [72, 101, 108, 108, 111] [] .release emptyMem =
      .ok (b', m') := fillFrame_release (Buffer.Rep.empty _) howns (by decide)
  obtain ⟨m₂, r, qs, hr, hrowns, _, hc⟩ := exists_buffer ((content m' (b'.pieces m')).drop kHeaderLen)
  have hbad := hclaim [72, 101, 108, 108, 111] [] .release .release emptyMem m' m₂ {} b' r [] [] qs 0 0
    (by decide) (Buffer.Rep.empty _) howns hsent hr hrowns hc
  obtain ⟨ps, hrep, howns', _, hcontent, _⟩ := fillFrame_ok (Buffer.Rep.empty _) howns hsent
  have hpieces : b'.pieces m' = ps := hrep.holds.rep.pieces_eq fun p hp => howns'.live (by simp [hp])
  rw [hpieces, hcontent] at hc
  obtain ⟨name, _, _, hname, hpassed⟩ :=
    (passedTypeName_spec .release hr hrowns (by rw [hr.length, hc]; decide)).and hbad
  rw [hname, hc] at hpassed
  exact absurd hpassed (by decide)

end Name

end ProtobufCodec

end Netpp
