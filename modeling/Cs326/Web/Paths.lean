import Cs326.Lib.Walk
import Cs326.Web.Request

/-!
# The served directory

The child works in the directory that was given to `chdir`, and looks a target up behind a dot. A path stays in the
directory if walking its segments never goes up from the start (`contained_iff`). The dot is no protection: the segments
`..` of a target are walked as they are, and a target that starts with a dot makes another `..` with it
(`contained_target`).
-/

namespace Cs326.Web

open Text

variable {env : Env} {p q input target : List UInt8} {e : Event}

/-- The segments of a path between the slashes. -/
def segments (path : List UInt8) : List (List UInt8) := path.splitOn 47

/-- Where a segment leads. -/
def segmentMove (segment : List UInt8) : Move :=
  if segment = [46, 46] then .up
  else if segment = [] ∨ segment = [46] then .stay
  else .down

/-- No prefix of the path has more `..` than ordinary segments. -/
def Contained (path : List UInt8) : Prop := ∀ l, l <+: segments path →
  l.countP (fun s => segmentMove s = .up) ≤ l.countP (fun s => segmentMove s = .down)

/-- The path that a call looks up. -/
def Event.path : Event → Option (List UInt8)
  | .stat path => some path
  | .open_rdonly path => some path
  | _ => none

/-- The request is handled, and the paths looked up for it stay in the directory. -/
def StaysInside (env : Env) (input : List UInt8) : Prop :=
  ∃ o, handle_request env input = .ok o ∧ ∀ e ∈ o.events, ∀ path ∈ e.path, Contained path

/-- The first segment of the target, which the dot goes in front of, is not a dot, and the others never go up from where
it leads. -/
def Within (target : List UInt8) : Prop :=
  match segments target with
  | [] => True
  | s :: ss => s ≠ [46] ∧ (depthAfter segmentMove (if s = [] then 0 else 1) ss).isSome = true

theorem contained_iff (p : List UInt8) : Contained p ↔ (depthAfter segmentMove 0 (segments p)).isSome = true := by
  rw [depthAfter_isSome_iff]
  simp only [Nat.zero_add]
  rfl

theorem segments_cons {b : UInt8} (hb : b ≠ 47) (p : List UInt8) :
    segments (b :: p) = (segments p).modifyHead (b :: ·) := by
  unfold segments List.splitOn
  rw [List.splitOnP_cons_eq_if_modifyHead, if_neg (by simpa using hb)]

/-- **The path of a target.** -/
theorem contained_target (target : List UInt8) : Contained (46 :: target) ↔ Within target := by
  rw [contained_iff, segments_cons (by decide), Within]
  cases segments target with
  | nil => simp [depthAfter]
  | cons s ss =>
    rw [List.modifyHead_cons]
    dsimp only
    by_cases hdot : s = [46]
    · have hup : segmentMove (46 :: s) = .up := by rw [hdot]; rfl
      rw [depthAfter_up hup, if_pos rfl]
      simp [hdot]
    · by_cases hnil : s = []
      · have hstay : segmentMove (46 :: s) = .stay := by rw [hnil]; rfl
        rw [depthAfter_stay hstay, if_pos hnil]
        simp [hdot]
      · have hdown : segmentMove (46 :: s) = .down := by simp [segmentMove, hdot, hnil]
        rw [depthAfter_down hdown, if_neg hnil]
        simp [hdot]

/-- The page of a directory is in it. -/
theorem contained_index (h : Contained p) : Contained (index p) := by
  rw [contained_iff] at h ⊢
  have hsegments : segments (index p) = segments p ++ [chars "index.html".toList] := by
    have hend : segments (chars "index.html".toList) = [chars "index.html".toList] := by decide
    rw [← hend]
    exact List.splitOnP_append_cons p (chars "index.html".toList) rfl
  obtain ⟨d, hd⟩ := Option.isSome_iff_exists.mp h
  rw [hsegments, depthAfter_append, hd, Option.bind_some, depthAfter_down (by decide)]
  rfl

theorem contained_nil : Contained [] := by
  rw [contained_iff]
  decide

theorem found_path {sb : Stat} (h : found env p = some (q, sb)) : q = p ∨ q = index p := by
  obtain ⟨sb₁, -, h⟩ := Option.bind_eq_some_iff.mp h
  split_ifs at h
  · obtain ⟨sb₂, -, h⟩ := Option.bind_eq_some_iff.mp h
    cases h
    exact .inr rfl
  · cases h
    exact .inl rfl

/-- The paths that are looked up to answer a request. -/
theorem path_of_mem_serve (he : e ∈ serve env p) (hq : q ∈ e.path) : q = p ∨ q = index p := by
  rcases List.mem_append.mp he with he | he
  · rcases List.mem_cons.mp he with rfl | he
    · cases hq
      exact .inl rfl
    · split_ifs at he
      · obtain rfl := List.mem_singleton.mp he
        cases hq
        exact .inr rfl
      · cases he
  · cases hfound : found env p with
    | none =>
      rw [hfound] at he
      obtain rfl := List.mem_singleton.mp he
      cases hq
    | some file =>
      rw [hfound] at he
      obtain ⟨q', sb⟩ := file
      simp only [answer, send_file, List.mem_cons, List.not_mem_nil, or_false] at he
      rcases he with rfl | rfl | rfl
      · cases hq
      · cases hq
        exact found_path hfound
      · cases hq

theorem contained_serve (env : Env) (p : List UInt8) :
    (∀ e ∈ serve env p, ∀ path ∈ e.path, Contained path) ↔ Contained p := by
  constructor
  · intro h
    exact h _ (stat_mem_serve env p) p rfl
  · intro h e he path hpath
    rcases path_of_mem_serve he hpath with rfl | rfl
    · exact h
    · exact contained_index h

theorem contained_pathFrom (hs : List (Option HeaderLine)) :
    Contained (pathFrom [] hs) ↔ ∀ target, lastTarget hs = some target → Within target := by
  cases htarget : lastTarget hs with
  | none =>
    rw [pathFrom, htarget]
    exact ⟨fun _ _ h => absurd h (by simp), fun _ => contained_nil⟩
  | some target =>
    rw [pathFrom_of_lastTarget htarget, contained_target]
    simp

/-- **The paths stay in the directory** if and only if the target does. -/
theorem stays_inside (env : Env) (input : List UInt8) : StaysInside env input ↔ none ∉ headers env.debug input ∧
    (some .blank ∈ headers env.debug input →
      ∀ target, lastTarget (headers env.debug input) = some target → Within target) := by
  have hiff := handles_iff env input (Q := fun events => ∀ e ∈ events, ∀ path ∈ e.path, Contained path)
    fun e he => absurd he List.not_mem_nil
  rw [contained_serve, contained_pathFrom] at hiff
  exact hiff

/-- A target that goes up. -/
theorem path_outside : ¬StaysInside .empty_directory (chars "GET /../x HTTP/1.1\r".toList ++ 10 :: [13, 10]) := by
  rintro ⟨o, ho, hpaths⟩
  have hget : HeaderLine.ofTokens (tokens delimiters (chars "GET /../x HTTP/1.1\r".toList)) =
      some (.get (chars "/../x".toList)) := by decide
  have hevents := events_served ho ((headers_get (by decide) hget _).trans (by rw [headers_blank])) (by simp)
  have hpath := hpaths _ (hevents ▸ stat_mem_serve _ _) _ rfl
  exact absurd ((contained_iff _).mp hpath) (by decide)

end Cs326.Web
