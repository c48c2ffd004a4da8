import Cs326.Socket.Server

/-!
# Any client

`server.c` on the bytes of a client that may write anything and then closes the connection. The server prints the
messages and comes back to `accept` if and only if, behind some messages that fit `buf`, there is a size of zero, which
asks for no byte, or a negative one, which makes `read` fail (`back_to_accept_iff`). Behind any other end of the stream
it reads on for ever, or over the end of `buf`.
-/

namespace Cs326.Socket

open CharArray

variable {n length : Nat} {input rest : List UInt8} {printed strs : List (List UInt8)} {buf : CharArray 128}

/-- The server, the bytes that it has not read, and what it has printed. -/
structure Serving where
  server : Server
  input : List UInt8
  printed : List (List UInt8)

/-- A step of the server where the client has closed its end; `none`: `accept`, or what C leaves undefined. -/
def serve_next (n : Nat) (s : Serving) : Option Serving :=
  match s.server.step n true s.input with
  | .ok (some r) => some ⟨r.server, r.input, s.printed ++ r.printed⟩
  | _ => none

/-- What `atoi` makes of the eight bytes of a size. -/
def sizeOf (h : List UInt8) : Int := atoi (h.takeWhile (· != 0))

/-- The stream holds the messages `strs`, then a size that is zero or negative, then `rest`. -/
inductive Dismisses : List UInt8 → List (List UInt8) → List UInt8 → Prop
  | stop {h rest : List UInt8} : h.length = 8 → sizeOf h ≤ 0 → Dismisses (h ++ rest) [] rest
  | message {h body input rest : List UInt8} {strs : List (List UInt8)} : h.length = 8 → sizeOf h = body.length →
      0 < body.length → body.length ≤ 128 → (body.length = 128 → 0 ∈ body) → Dismisses input strs rest →
      Dismisses (h ++ (body ++ input)) (body.takeWhile (· != 0) :: strs) rest

/-! ## Reads -/

/-- The bytes of the array up to a zero. -/
theorem string_of_bytes {piece : List UInt8} {k : Nat} (h : buf.bytes = piece ++ List.replicate k 0)
    (hzero : 0 ∈ piece ∨ 0 < k) : StringAt buf 0 (piece.takeWhile (· != 0)) := by
  have hnot : 0 ∉ piece.takeWhile (· != 0) := fun h => by simpa using List.mem_takeWhile_imp h
  refine ⟨hnot, ?_⟩
  rw [List.drop_zero, h]
  have hsplit := List.takeWhile_append_dropWhile (p := (· != 0)) (l := piece)
  cases hdrop : piece.dropWhile (· != 0) with
  | nil =>
    rw [hdrop, List.append_nil] at hsplit
    obtain ⟨k, rfl⟩ : ∃ k', k = k' + 1 := by
      refine ⟨k - 1, ?_⟩
      have hk := hzero.resolve_left fun hmem => hnot (hsplit.symm ▸ hmem)
      omega
    exact ⟨List.replicate k 0, by rw [hsplit]; rfl⟩
  | cons b back =>
    have hb := List.head_dropWhile_not (· != 0) (l := piece) (by simp [hdrop])
    simp only [hdrop, List.head_cons, bne_eq_false_iff_eq] at hb
    refine ⟨back ++ List.replicate k 0, ?_⟩
    conv_lhs => rw [← hsplit, hdrop, hb]
    simp

/-- The server that waits for bytes which never come. -/
theorem spins {s t : Serving} {result : Int} (length : Nat) (hlength : length < 2 ^ 63)
    (next : Int → CharArray 128 → Server) (hresult : toInt result = result) (hserver : s.server = next result buf)
    (hinput : s.input = [])
    (hreads : s.server.step n true [] = readStep n true [] length result buf next) : ¬Ends (serve_next n) s t := by
  have hnext : serve_next n s = some s := by
    obtain ⟨server, input, printed⟩ := s
    dsimp only at hserver hinput
    subst hinput hserver
    unfold serve_next
    dsimp only
    rw [hreads, readStep_eof hlength hresult]
    dsimp only
    rw [List.append_nil]
  refine not_ends (I := fun u => u = s) ?_ rfl
  intro u hu
  exact ⟨s, hu ▸ hnext, rfl⟩

/-- A `read` that returns bytes: all there are, or all that are asked for. -/
theorem serve_read (printed : List (List UInt8)) {server : Server} {next : Int → CharArray 128 → Server} (got : Nat)
    (hlength : length < 2 ^ 63) (hn : input.length ≤ n) (hsome : input ≠ [])
    (hreads : server.step n true input = readStep n true input length 0 (.zero 128) next)
    (hgot : got = min length input.length) :
    (got ≤ 128 ∧ ∃ buf, buf.bytes = input.take got ++ List.replicate (128 - got) 0 ∧
      serve_next n ⟨server, input, printed⟩ = some ⟨next got buf, input.drop got, printed⟩) ∨
    (128 < got ∧ serve_next n ⟨server, input, printed⟩ = none) := by
  have hlen := List.length_pos_iff.mpr hsome
  have htook : (Kernel.mk (fun _ => n) false).took length input.length = got := by
    unfold Kernel.took
    dsimp only
    omega
  have htake : (input.take got).length = got := by
    rw [List.length_take]
    omega
  have hread : readStep n true input length 0 (.zero 128) next = (CharArray.zero 128).write 0 (input.take got) >>=
      fun buf => .ok (some ⟨next (toInt (0 + got)) buf, input.drop got, []⟩) := by
    unfold readStep read_into
    rw [if_neg fun h => hsome h.2.1, if_neg (Nat.not_le.mpr hlength), if_neg hsome]
    dsimp only
    rw [htook]
    cases (CharArray.zero 128).write 0 (input.take got) with
    | ok buf => rfl
    | error e => rfl
  unfold serve_next
  dsimp only
  rw [hreads, hread]
  rcases Nat.lt_or_ge 128 got with hover | hle
  · have hwrite : (CharArray.zero 128).write 0 (input.take got) = .error .overrun := by
      refine dif_neg ?_
      rw [htake]
      omega
    rw [hwrite]
    exact .inr ⟨hover, rfl⟩
  · have hzero : (CharArray.zero 128).bytes = [] ++ (List.replicate got 0 ++ List.replicate (128 - got) 0) := by
      rw [List.nil_append, List.replicate_append_replicate, Nat.add_sub_cancel' hle]
      rfl
    obtain ⟨buf, hwrite, hbytes⟩ := write_eq [] _ (input.take got) _ hzero (htake.trans List.length_replicate.symm)
    have hint : toInt (0 + got) = got := by
      rw [Int.zero_add]
      exact Int.bmod_eq_of_le (by omega) (by omega)
    refine .inl ⟨hle, buf, hbytes, ?_⟩
    rw [show (CharArray.zero 128).write 0 (input.take got) = .ok buf from hwrite, ok_bind, hint]
    dsimp only
    rw [List.append_nil]

/-! ## Rounds -/

/-- The size is read. -/
theorem serve_size {h : List UInt8} (hh : h.length = 8) (hn : (h ++ input).length ≤ n) (t : Serving) :
    Ends (serve_next n) ⟨.start, h ++ input, printed⟩ t ↔
      Ends (serve_next n) ⟨.readBody (sizeOf h) 0 (.zero 128), input, printed⟩ t := by
  have hlen : (h ++ input).length = 8 + input.length := by rw [List.length_append, hh]
  have hsome : h ++ input ≠ [] := List.length_pos_iff.mp (by omega)
  rcases serve_read printed 8 (by decide) hn hsome (step_start true _) (by omega) with
    ⟨-, size, hbytes, hread⟩ | ⟨hover, -⟩
  · rw [List.take_left' hh] at hbytes
    rw [List.drop_left' hh] at hread
    refine (ends_iff_next hread).trans (ends_iff_next ?_)
    have hstring := string_of_bytes hbytes (.inr (by decide))
    have hguard : ¬toSize (8 : Nat) < (8 : Nat) := by decide
    unfold serve_next Server.step
    dsimp only
    rw [if_neg hguard, hstring.string, ok_bind]
    simp [sizeOf]
  · exact absurd hover (by decide)

/-- A negative size. -/
theorem serve_negative {v : Int} (hv : v < 0) (hrange : -2 ^ 31 ≤ v) (t : Serving) :
    Ends (serve_next n) ⟨.readBody v 0 (.zero 128), input, printed⟩ t ↔ t = ⟨.accept, input, printed⟩ := by
  have hsize : 2 ^ 63 ≤ (toSize v).toNat ∧ toSize 0 < toSize v ∧ ¬toSize (-1) < toSize v := by
    unfold toSize
    omega
  obtain ⟨hlength, hguard, hstop⟩ := hsize
  have hread : serve_next n ⟨.readBody v 0 (.zero 128), input, printed⟩ =
      some ⟨.readBody v (-1) (.zero 128), input, printed⟩ := by
    unfold serve_next Server.step
    dsimp only
    rw [if_pos hguard, readStep_refused hlength]
    simp
  have hbreak : serve_next n ⟨.readBody v (-1) (.zero 128), input, printed⟩ = some ⟨.accept, input, printed⟩ := by
    unfold serve_next Server.step
    dsimp only
    rw [if_neg hstop, if_pos (.inl rfl)]
    simp
  refine (ends_iff_next hread).trans ((ends_iff_next hbreak).trans (ends_iff_stop ?_))
  rfl

/-- A size of zero. -/
theorem serve_zero (t : Serving) :
    Ends (serve_next n) ⟨.readBody 0 0 (.zero 128), input, printed⟩ t ↔ t = ⟨.accept, input, printed⟩ := by
  have hnext : serve_next n ⟨.readBody 0 0 (.zero 128), input, printed⟩ = some ⟨.accept, input, printed⟩ := by
    unfold serve_next Server.step
    dsimp only
    rw [if_neg (Int.lt_irrefl _), if_pos (.inr rfl)]
    simp
  refine (ends_iff_next hnext).trans (ends_iff_stop ?_)
  rfl

/-- A message that fits is printed, and the next one is awaited. -/
theorem serve_body {body : List UInt8} (hpos : 0 < body.length) (hle : body.length ≤ 128)
    (hzero : body.length = 128 → 0 ∈ body) (hn : (body ++ input).length ≤ n) (t : Serving) :
    Ends (serve_next n) ⟨.readBody body.length 0 (.zero 128), body ++ input, printed⟩ t ↔
      Ends (serve_next n) ⟨.start, input, printed ++ [body.takeWhile (· != 0)]⟩ t := by
  have hlen : (body ++ input).length = body.length + input.length := List.length_append
  have hsome : body ++ input ≠ [] := List.length_pos_iff.mp (by omega)
  have hreads := @step_readBody n (.zero 128) body.length hpos (by omega) true (body ++ input)
  obtain ⟨-, buf, hbytes, hread⟩ := (serve_read printed body.length (by omega) hn hsome hreads (by omega)).resolve_right
    fun h => by omega
  rw [List.take_left] at hbytes
  rw [List.drop_left] at hread
  refine (ends_iff_next hread).trans (ends_iff_next ?_)
  have hstring := string_of_bytes hbytes (by
    by_cases h128 : body.length = 128
    · exact .inl (hzero h128)
    · exact .inr (by omega))
  unfold serve_next
  dsimp only
  rw [step_gotBody hstring hpos (by omega)]

/-- The server comes back from both. -/
theorem serve_stop {v : Int} (hv : v ≤ 0) (hrange : -2 ^ 31 ≤ v) (t : Serving) :
    Ends (serve_next n) ⟨.readBody v 0 (.zero 128), input, printed⟩ t ↔ t = ⟨.accept, input, printed⟩ := by
  rcases Int.lt_or_eq_of_le hv with hlt | rfl
  · exact serve_negative hlt hrange t
  · exact serve_zero t

/-- The other sizes: the server does not come back from them. -/
theorem serve_lost {v : Int} (hv : 0 < v) (hlt : v < 2 ^ 31) (hn : input.length ≤ n)
    (hlost : ¬∃ body rest, input = body ++ rest ∧ v = body.length ∧ body.length ≤ 128 ∧
      (body.length = 128 → 0 ∈ body)) {rest : List UInt8} {printed' : List (List UInt8)} :
    ¬Ends (serve_next n) ⟨.readBody v 0 (.zero 128), input, printed⟩ ⟨.accept, rest, printed'⟩ := by
  have hlength : 0 < (toSize v).toNat ∧ (toSize v).toNat < 2 ^ 63 ∧ toSize v = v := by
    unfold toSize
    omega
  obtain ⟨hpos, hbound, hself⟩ := hlength
  have hreads : (Server.readBody v 0 (.zero 128)).step n true input =
      readStep n true input (toSize v).toNat 0 (.zero 128) (.readBody v) := by
    have hguard : toSize 0 < toSize v := by
      rw [toSize_zero]
      omega
    unfold Server.step
    dsimp only
    rw [if_pos hguard]
  by_cases hsome : input = []
  · subst hsome
    exact spins _ hbound _ toInt_zero rfl rfl hreads
  · have hlen := List.length_pos_iff.mpr hsome
    rcases serve_read printed _ hbound hn hsome hreads rfl with ⟨hle, buf, hbytes, hread⟩ | ⟨-, hover⟩
    · intro hends
      have hends := (ends_iff_next hread).mp hends
      generalize hgot : min (toSize v).toNat input.length = got at hle hbytes hends
      have hsize : toSize got = got := toSize_natCast (by omega)
      rcases Nat.lt_or_ge got (toSize v).toNat with hlt | hge
      · -- the stream has come to its end
        have hdrop : input.drop got = [] := List.drop_eq_nil_of_le (by omega)
        have hguard : toSize got < toSize v := by omega
        have hint : toInt got = got := Int.bmod_eq_of_le (by omega) (by omega)
        refine spins (toSize v).toNat hbound (.readBody v) hint rfl hdrop ?_ hends
        unfold Server.step
        dsimp only
        rw [if_pos hguard]
      · -- there is no zero in `buf`
        obtain hv' : v = got := by omega
        have htake : (input.take got).length = got := by
          rw [List.length_take]
          omega
        have hfull : got = 128 ∧ 0 ∉ input.take got := by
          by_contra hfull
          refine hlost ⟨input.take got, input.drop got, (List.take_append_drop _ _).symm, by omega, by omega, ?_⟩
          intro h128
          by_contra hmem
          exact hfull ⟨htake.symm.trans h128, hmem⟩
        obtain ⟨rfl, hmem⟩ := hfull
        have hover : buf.string 0 = .error .overrun := by
          have hscan : buf.strlen 0 = .error .overrun := by
            refine scan_overrun fun b hb => ?_
            rw [List.drop_zero, hbytes, Nat.sub_self, List.replicate_zero, List.append_nil] at hb
            have hb0 : b ≠ 0 := fun e => hmem (e ▸ hb)
            simpa using hb0
          unfold CharArray.string
          rw [hscan, error_bind]
        have hstop : serve_next n ⟨.readBody v (128 : Nat) buf, input.drop 128, printed⟩ = none := by
          unfold serve_next Server.step
          dsimp only
          rw [hv', if_neg (Int.lt_irrefl _), if_neg (by decide), hover, error_bind]
        cases (ends_iff_stop hstop).mp hends
    · intro hends
      cases (ends_iff_stop hover).mp hends

/-! ## The whole stream -/

theorem sizeOf_range (h : List UInt8) : -2 ^ 31 ≤ sizeOf h ∧ sizeOf h < 2 ^ 31 := by
  unfold sizeOf atoi
  have hlow := Int.le_bmod (x := strtol (h.takeWhile (· != 0))) (m := 2 ^ 32) (by decide)
  have hhigh := Int.bmod_lt (x := strtol (h.takeWhile (· != 0))) (m := 2 ^ 32) (by decide)
  omega

/-- A stream that is not even a size. -/
theorem serve_short (hn : input.length ≤ n) (hshort : input.length < 8) {printed' : List (List UInt8)} :
    ¬Ends (serve_next n) ⟨.start, input, printed⟩ ⟨.accept, rest, printed'⟩ := by
  by_cases hsome : input = []
  · subst hsome
    exact spins _ (by decide) _ toInt_zero rfl rfl (step_start true [])
  · rcases serve_read printed input.length (by decide) hn hsome (step_start true _) (by omega) with
      ⟨-, size, -, hread⟩ | ⟨hover, -⟩
    · intro hends
      rw [List.drop_length] at hread
      have hsize : toSize input.length = input.length := toSize_natCast (by omega)
      have hguard : toSize input.length < (8 : Nat) := by omega
      have hint : toInt input.length = input.length := Int.bmod_eq_of_le (by omega) (by omega)
      refine spins 8 (by decide) .readSize hint rfl rfl ?_ ((ends_iff_next hread).mp hends)
      unfold Server.step
      dsimp only
      rw [if_pos hguard]
    · omega

theorem serve_iff (hn : input.length ≤ n) {printed' : List (List UInt8)} :
    Ends (serve_next n) ⟨.start, input, printed⟩ ⟨.accept, rest, printed'⟩ ↔
      ∃ strs, printed' = printed ++ strs ∧ Dismisses input strs rest := by
  constructor
  · intro hends
    obtain ⟨m, hm⟩ : ∃ m, input.length ≤ m := ⟨_, Nat.le_refl _⟩
    induction m generalizing input printed with
    | zero => exact absurd hends (serve_short hn (by omega))
    | succ m ih =>
      rcases Nat.lt_or_ge input.length 8 with hshort | hlong
      · exact absurd hends (serve_short hn hshort)
      · obtain ⟨h, input, rfl, hh⟩ : ∃ h input', input = h ++ input' ∧ h.length = 8 :=
          ⟨input.take 8, input.drop 8, (List.take_append_drop _ _).symm, by rw [List.length_take]; omega⟩
        have hends := (serve_size hh hn _).mp hends
        rw [List.length_append, hh] at hn hm
        by_cases hstop : sizeOf h ≤ 0
        · cases (serve_stop hstop (sizeOf_range h).1 _).mp hends
          exact ⟨[], (List.append_nil _).symm, .stop hh hstop⟩
        · by_cases hfits : ∃ body rest, input = body ++ rest ∧ sizeOf h = body.length ∧ body.length ≤ 128 ∧
              (body.length = 128 → 0 ∈ body)
          · obtain ⟨body, input, rfl, hsize, hle, h0⟩ := hfits
            have hpos : 0 < body.length := by omega
            rw [hsize, serve_body hpos hle h0 (by omega)] at hends
            rw [List.length_append] at hn hm
            obtain ⟨strs, rfl, hdismisses⟩ := ih (by omega) hends (by omega)
            exact ⟨_ :: strs, by simp, .message hh hsize hpos hle h0 hdismisses⟩
          · exact absurd hends (serve_lost (by omega) (sizeOf_range h).2 (by omega) hfits)
  · rintro ⟨strs, rfl, hdismisses⟩
    induction hdismisses generalizing printed with
    | @stop h rest hh hstop =>
      rw [serve_size hh hn, serve_stop hstop (sizeOf_range h).1, List.append_nil]
    | @message h body input rest strs hh hsize hpos hle h0 _ ih =>
      rw [serve_size hh hn, hsize]
      rw [List.length_append, hh] at hn
      rw [serve_body hpos hle h0 (by omega), List.append_cons printed (body.takeWhile (· != 0)) strs]
      rw [List.length_append] at hn
      exact ih (by omega)

/-- **The server comes back to `accept`** if and only if the client sends a size that is zero or negative behind
messages that fit; it has then printed them, each up to its first zero. -/
theorem back_to_accept_iff (hn : input.length ≤ n) :
    Ends (serve_next n) ⟨.start, input, []⟩ ⟨.accept, rest, printed⟩ ↔ Dismisses input printed rest := by
  rw [serve_iff hn]
  constructor
  · rintro ⟨strs, rfl, hdismisses⟩
    exact hdismisses
  · intro hdismisses
    exact ⟨printed, rfl, hdismisses⟩

/-- `hi` with its zero, and a size of `-1`. -/
theorem back_to_accept_hi : Ends (serve_next 20)
    ⟨.start, [51, 0, 0, 0, 0, 0, 0, 0] ++ ([104, 105, 0] ++ ([45, 49, 0, 0, 0, 0, 0, 0] ++ [7])), []⟩
    ⟨.accept, [7], [[104, 105]]⟩ := by
  refine (back_to_accept_iff (by decide)).mpr ?_
  have hstop : Dismisses ([45, 49, 0, 0, 0, 0, 0, 0] ++ [7]) [] [7] := .stop rfl (by decide)
  exact .message rfl (by decide) (by decide) (by decide) (by decide) hstop

end Cs326.Socket
