import Ssms.Kernel.Error
import Ssms.Lib.Wrap
import Mathlib.Data.List.Basic
import Mathlib.Tactic.SplitIfs

/-!
# The features that are reported (`srs_build_features`, `srs_app_latest_version.cpp`)

The configuration is a tree of directives with the answers of `SrsConfig` and `SrsConfDirective`
about them; the macros of the build are parameters as well. The scan goes over the first 128
directives and, in each enabled vhost, over the first 64 of its children; it asks for nothing that
it has found already.

* `detect_eq`: what the scan finds. It loses nothing by not asking again, and nothing by leaving the
  children of a vhost early, but for one thing: a stream caster of `flv` counts only before the
  first one of `rtsp`.
* `srsBuildFeatures_perm`: so the report does not depend on the order of the directives where these
  are not too many and no `flv` caster is among them.
-/

namespace Ssms.App

open Ssms.Kernel Ssms.Lib

/-- `SrsConfDirective`, of which the scan reads the name and the children. -/
inductive SrsConfDirective where
  | mk (name : Bytes) (directives : List SrsConfDirective)

namespace SrsConfDirective

def name : SrsConfDirective → Bytes
  | .mk name _ => name

def directives : SrsConfDirective → List SrsConfDirective
  | .mk _ directives => directives

end SrsConfDirective

/-- What a loop `for (int i = 0; i < (int) directives.size() && i < limit; i++)` goes over. -/
def scanned (limit : Nat) (directives : List SrsConfDirective) : List SrsConfDirective :=
  directives.take (min (passes directives.length) limit)

theorem scanned_eq {limit : Nat} {directives : List SrsConfDirective}
    (h : directives.length ≤ limit) (hlimit : limit < 2 ^ 31) :
    scanned limit directives = directives := by
  rw [scanned, passes_eq (h.trans_lt hlimit), Nat.min_eq_left h, List.take_length]

/-- The processor of the build. -/
inductive Arch where
  | x86
  | arm
  | mips

/-- The macros of the build, and `_srs_in_docker`. -/
structure Build where
  srsOsxBool : Bool
  arch : Option Arch
  srsPackager : Bytes
  srsCrossbuildBool : Bool
  srsRtcBool : Bool
  srsSrtBool : Bool
  srsInDocker : Bool

/-- `SrsConfig`, with what its directives say of themselves. -/
structure SrsConfig where
  root : SrsConfDirective
  isStreamCaster : SrsConfDirective → Bool
  isVhost : SrsConfDirective → Bool
  getRtcServerEnabled : Bool
  getSrtEnabled : Bool
  getHttpApiEnabled : Bool
  getHttpsApiEnabled : Bool
  getRawApi : Bool
  getStreamCasterEnabled : SrsConfDirective → Bool
  getStreamCasterEngine : SrsConfDirective → Bytes
  getVhostEnabled : SrsConfDirective → Bool
  getForwardEnabled : SrsConfDirective → Bool
  getVhostIsEdge : SrsConfDirective → Bool
  getVhostOriginCluster : SrsConfDirective → Bool
  getHlsEnabled : SrsConfDirective → Bool
  getDvrEnabled : SrsConfDirective → Bool
  getVhostHttpRemuxEnabled : SrsConfDirective → Bool
  getVhostHttpHooksEnabled : SrsConfDirective → Bool
  getDashEnabled : SrsConfDirective → Bool
  getHdsEnabled : SrsConfDirective → Bool
  getExecEnabled : SrsConfDirective → Bool
  getSecurityEnabled : SrsConfDirective → Bool
  getIngestEnabled : SrsConfDirective → Bool
  getTranscodeEnabled : SrsConfDirective → Bool

/-- The variables of the scan. -/
@[ext]
structure Features where
  nnVhosts : Nat := 0
  rtsp : Bool := false
  forward : Bool := false
  ingest : Bool := false
  edge : Bool := false
  hls : Bool := false
  dvr : Bool := false
  flv : Bool := false
  hooks : Bool := false
  dash : Bool := false
  hds : Bool := false
  exec : Bool := false
  transcode : Bool := false
  security : Bool := false
  flv2 : Bool := false
  oc : Bool := false

namespace SrsConfig

variable (c : SrsConfig)

/-! ## The scan -/

/-- `if (!flag && cond) flag = true`. -/
def raise (flag cond : Bool) : Bool := if !flag && cond then true else flag

/-- A stream caster. -/
def scanCaster (f : Features) (conf : SrsConfDirective) : Features :=
  if !f.rtsp && c.isStreamCaster conf && c.getStreamCasterEnabled conf then
    let engine := c.getStreamCasterEngine conf
    if engine = ascii "rtsp" then { f with rtsp := true }
    else if engine = ascii "flv" then { f with flv2 := true }
    else f
  else f

/-- The loop over the children of a vhost. -/
def scanProps (f : Features) : List SrsConfDirective → Features
  | [] => f
  | prop :: props =>
    let ingest := raise f.ingest (prop.name = ascii "ingest" && c.getIngestEnabled prop)
    let transcode := raise f.transcode
      (prop.name = ascii "transcode" && c.getTranscodeEnabled prop)
    let f := { f with ingest, transcode }
    if f.ingest && f.transcode then f else scanProps f props

/-- A vhost. -/
def scanVhost (f : Features) (conf : SrsConfDirective) : Features :=
  if c.isVhost conf && c.getVhostEnabled conf then
    let f := { f with
      nnVhosts := f.nnVhosts + 1
      forward := raise f.forward (c.getForwardEnabled conf)
      edge := raise f.edge (c.getVhostIsEdge conf)
      oc := raise f.oc (c.getVhostOriginCluster conf)
      hls := raise f.hls (c.getHlsEnabled conf)
      dvr := raise f.dvr (c.getDvrEnabled conf)
      flv := raise f.flv (c.getVhostHttpRemuxEnabled conf)
      hooks := raise f.hooks (c.getVhostHttpHooksEnabled conf)
      dash := raise f.dash (c.getDashEnabled conf)
      hds := raise f.hds (c.getHdsEnabled conf)
      exec := raise f.exec (c.getExecEnabled conf)
      security := raise f.security (c.getSecurityEnabled conf) }
    c.scanProps f (scanned 64 conf.directives)
  else f

/-- One pass of the loop over the directives. -/
def scanDirective (f : Features) (conf : SrsConfDirective) : Features :=
  c.scanVhost (c.scanCaster f conf) conf

/-- The loop over the directives. -/
def detect : Features :=
  (scanned 128 c.root.directives).foldl c.scanDirective {}

/-! ## The report -/

/-- `if (cond) ss << "&" << key << "=" << value`. -/
def check (cond : Bool) (key : String) (value : Bytes := ascii "1") : Bytes :=
  if cond then ascii "&" ++ ascii key ++ ascii "=" ++ value else []

/-- The text of a scan. -/
def report (build : Build) (f : Features) : Bytes :=
  (if build.srsOsxBool then ascii "&os=mac" else ascii "&os=linux") ++
  (match build.arch with
    | some .x86 => ascii "&x86=1"
    | some .arm => ascii "&arm=1"
    | some .mips => ascii "&mips=1"
    | none => []) ++
  check build.srsInDocker "docker" ++ check (build.srsPackager ≠ []) "packager" build.srsPackager ++
  check build.srsCrossbuildBool "cross" ++
  check (build.srsRtcBool && c.getRtcServerEnabled) "rtc" ++
  check (build.srsSrtBool && c.getSrtEnabled) "srt" ++
  check c.getHttpApiEnabled "api" ++ check c.getHttpsApiEnabled "https" ++
    check c.getRawApi "raw" ++
  check (f.nnVhosts ≠ 0) "vhosts" ++ check f.rtsp "rtsp" ++ check f.flv2 "flv2" ++
  check f.forward "forward" ++ check f.ingest "ingest" ++ check f.edge "edge" ++ check f.oc "oc" ++
  check f.hls "hls" ++ check f.dvr "dvr" ++ check f.flv "flv" ++ check f.hooks "hooks" ++
  check f.dash "dash" ++ check f.hds "hds" ++ check f.exec "exec" ++
  check f.transcode "transcode" ++ check f.security "security"

/-- `srs_build_features`. -/
def srsBuildFeatures (build : Build) : Bytes := c.report build c.detect

/-! ## What the scan finds -/

/-- An enabled stream caster of an engine. -/
def castsFrom (engine : String) (conf : SrsConfDirective) : Bool :=
  c.isStreamCaster conf && c.getStreamCasterEnabled conf &&
    (c.getStreamCasterEngine conf = ascii engine)

/-- The enabled vhosts. -/
def vhosts (confs : List SrsConfDirective) : List SrsConfDirective :=
  confs.filter fun conf => c.isVhost conf && c.getVhostEnabled conf

/-- The children that are looked at. -/
def vhostProps (confs : List SrsConfDirective) : List SrsConfDirective :=
  (c.vhosts confs).flatMap fun conf => scanned 64 conf.directives

/-- What is found in directives, beside `f`. -/
def found (f : Features) (confs : List SrsConfDirective) : Features where
  nnVhosts := f.nnVhosts + (c.vhosts confs).length
  rtsp := f.rtsp || confs.any (c.castsFrom "rtsp")
  forward := f.forward || (c.vhosts confs).any c.getForwardEnabled
  ingest := f.ingest || (c.vhostProps confs).any fun prop =>
    prop.name = ascii "ingest" && c.getIngestEnabled prop
  edge := f.edge || (c.vhosts confs).any c.getVhostIsEdge
  hls := f.hls || (c.vhosts confs).any c.getHlsEnabled
  dvr := f.dvr || (c.vhosts confs).any c.getDvrEnabled
  flv := f.flv || (c.vhosts confs).any c.getVhostHttpRemuxEnabled
  hooks := f.hooks || (c.vhosts confs).any c.getVhostHttpHooksEnabled
  dash := f.dash || (c.vhosts confs).any c.getDashEnabled
  hds := f.hds || (c.vhosts confs).any c.getHdsEnabled
  exec := f.exec || (c.vhosts confs).any c.getExecEnabled
  transcode := f.transcode || (c.vhostProps confs).any fun prop =>
    prop.name = ascii "transcode" && c.getTranscodeEnabled prop
  security := f.security || (c.vhosts confs).any c.getSecurityEnabled
  flv2 := f.flv2 || (!f.rtsp && (confs.takeWhile fun conf => !c.castsFrom "rtsp" conf).any
    (c.castsFrom "flv"))
  oc := f.oc || (c.vhosts confs).any c.getVhostOriginCluster

@[simp]
theorem raise_eq (flag cond : Bool) : raise flag cond = (flag || cond) := by
  cases flag <;> simp [raise]

/-- Leaving the children early loses nothing. -/
theorem scanProps_eq (f : Features) (props : List SrsConfDirective) : c.scanProps f props =
    { f with
      ingest := f.ingest || props.any fun prop =>
        prop.name = ascii "ingest" && c.getIngestEnabled prop
      transcode := f.transcode || props.any fun prop =>
        prop.name = ascii "transcode" && c.getTranscodeEnabled prop } := by
  induction props generalizing f with
  | nil => simp [scanProps]
  | cons prop props ih =>
    simp only [scanProps, raise_eq, List.any_cons]
    split_ifs with h
    · obtain ⟨hingest, htranscode⟩ := Bool.and_eq_true_iff.mp h
      simp [← Bool.or_assoc, hingest, htranscode]
    · rw [ih]
      simp only [Bool.or_assoc]

/-- A caster of `flv` counts where none of `rtsp` was found. -/
theorem scanCaster_eq (f : Features) (conf : SrsConfDirective) : c.scanCaster f conf =
    { f with
      rtsp := f.rtsp || c.castsFrom "rtsp" conf
      flv2 := f.flv2 || (!f.rtsp && (!c.castsFrom "rtsp" conf && c.castsFrom "flv" conf)) } := by
  have hengines : ascii "rtsp" ≠ ascii "flv" := by decide
  by_cases h : (!f.rtsp && c.isStreamCaster conf && c.getStreamCasterEnabled conf) = true
  · obtain ⟨⟨hrtsp, hcaster⟩, henabled⟩ : (f.rtsp = false ∧ _) ∧ _ := by simpa using h
    rw [scanCaster, if_pos h]
    dsimp only
    split_ifs with hengine hengine'
    · simp [castsFrom, hcaster, henabled, hengine]
    · simp [castsFrom, hrtsp, hcaster, henabled, hengine', hengines.symm]
    · simp [castsFrom, hengine, hengine']
  · rw [scanCaster, if_neg h]
    cases hrtsp : f.rtsp
    · simp only [hrtsp, Bool.not_false, Bool.true_and, Bool.not_eq_true] at h
      simp [castsFrom, Features.ext_iff, hrtsp, h]
    · simp [Features.ext_iff, hrtsp]

/-- One directive. -/
theorem scanDirective_eq (f : Features) (conf : SrsConfDirective) :
    c.scanDirective f conf = c.found f [conf] := by
  rw [scanDirective, scanCaster_eq, scanVhost]
  cases hvhost : c.isVhost conf && c.getVhostEnabled conf <;>
    cases hrtsp : c.castsFrom "rtsp" conf <;>
      simp [scanProps_eq, found, vhosts, vhostProps, hvhost, hrtsp]

theorem any_takeWhile_append {α : Type} (p q : α → Bool) (l l' : List α) :
    ((l ++ l').takeWhile fun a => !p a).any q =
      ((l.takeWhile fun a => !p a).any q || (!l.any p && (l'.takeWhile fun a => !p a).any q)) := by
  induction l with
  | nil => simp
  | cons a l ih => cases hp : p a <;> simp [hp, ih, Bool.or_assoc]

theorem found_append (f : Features) (confs confs' : List SrsConfDirective) :
    c.found (c.found f confs) confs' = c.found f (confs ++ confs') := by
  have hflv (b b' x y z : Bool) : ((b || (!b' && x)) || (!(b' || y) && z)) =
      (b || (!b' && (x || (!y && z)))) := by
    cases b' <;> simp [Bool.or_assoc]
  simp only [found, vhosts, vhostProps, List.filter_append, List.flatMap_append, List.any_append,
    List.length_append, any_takeWhile_append, hflv, Bool.or_assoc, Nat.add_assoc]

/-- What the scan finds. -/
theorem detect_eq : c.detect = c.found {} (scanned 128 c.root.directives) := by
  have hfold : ∀ (confs : List SrsConfDirective) (f : Features),
      confs.foldl c.scanDirective f = c.found f confs := by
    intro confs
    induction confs with
    | nil =>
      intro f
      simp [found, vhosts, vhostProps]
    | cons conf confs ih =>
      intro f
      rw [List.foldl_cons, scanDirective_eq, ih, found_append, List.singleton_append]
  exact hfold _ _

/-- **The report is that of what the first 128 directives have**, each looked at once, with the
first 64 children of the enabled vhosts. -/
theorem srsBuildFeatures_eq (build : Build) : c.srsBuildFeatures build =
    c.report build (c.found {} (scanned 128 c.root.directives)) := by
  rw [srsBuildFeatures, detect_eq]

theorem found_perm {confs confs' : List SrsConfDirective} (h : confs.Perm confs')
    (hflv : ∀ conf ∈ confs, c.castsFrom "flv" conf = false) :
    c.found {} confs = c.found {} confs' := by
  have hvhosts : (c.vhosts confs).Perm (c.vhosts confs') := h.filter _
  have hprops : (c.vhostProps confs).Perm (c.vhostProps confs') := hvhosts.flatMap_right _
  have hnone : ∀ {confs : List SrsConfDirective}, (∀ conf ∈ confs, c.castsFrom "flv" conf = false) →
      ((confs.takeWhile fun conf => !c.castsFrom "rtsp" conf).any (c.castsFrom "flv")) = false :=
    fun hconfs => List.any_eq_false.mpr fun conf hconf =>
      Bool.eq_false_iff.mp (hconfs conf ((List.takeWhile_sublist _).mem hconf))
  have hflv' : ∀ conf ∈ confs', c.castsFrom "flv" conf = false :=
    fun conf hconf => hflv conf (h.mem_iff.mpr hconf)
  simp only [found, hvhosts.length_eq, hvhosts.any_eq, hprops.any_eq, h.any_eq, hnone hflv,
    hnone hflv']

/-- **The report does not depend on the order of the directives**, where they are no more than 128
and no stream caster of `flv` is among them. -/
theorem srsBuildFeatures_perm {confs confs' : List SrsConfDirective} (name : Bytes)
    (h : confs.Perm confs') (hlen : confs.length ≤ 128)
    (hflv : ∀ conf ∈ confs, c.castsFrom "flv" conf = false) (build : Build) :
    { c with root := .mk name confs }.srsBuildFeatures build =
      { c with root := .mk name confs' }.srsBuildFeatures build := by
  rw [srsBuildFeatures, srsBuildFeatures, detect_eq, detect_eq]
  show c.report build (c.found {} (scanned 128 confs)) =
    c.report build (c.found {} (scanned 128 confs'))
  rw [scanned_eq hlen (by decide),
    scanned_eq (h.length_eq ▸ hlen) (by decide), c.found_perm h hflv]

end SrsConfig

/-- `rtsp` casters and vhosts with HLS. -/
def rtspAndHls : SrsConfig where
  root := .mk [] []
  isStreamCaster conf := conf.name = ascii "stream_caster"
  isVhost conf := conf.name = ascii "vhost"
  getRtcServerEnabled := false
  getSrtEnabled := false
  getHttpApiEnabled := true
  getHttpsApiEnabled := false
  getRawApi := false
  getStreamCasterEnabled _ := true
  getStreamCasterEngine _ := ascii "rtsp"
  getVhostEnabled _ := true
  getForwardEnabled _ := false
  getVhostIsEdge _ := false
  getVhostOriginCluster _ := false
  getHlsEnabled _ := true
  getDvrEnabled _ := false
  getVhostHttpRemuxEnabled _ := false
  getVhostHttpHooksEnabled _ := false
  getDashEnabled _ := false
  getHdsEnabled _ := false
  getExecEnabled _ := false
  getSecurityEnabled _ := false
  getIngestEnabled _ := false
  getTranscodeEnabled _ := false

theorem srsBuildFeatures_perm_swap :
    { rtspAndHls with
      root := .mk [] [.mk (ascii "stream_caster") [], .mk (ascii "vhost") []] }.srsBuildFeatures
        ⟨false, some .x86, [], false, false, false, false⟩ =
    { rtspAndHls with
      root := .mk [] [.mk (ascii "vhost") [], .mk (ascii "stream_caster") []] }.srsBuildFeatures
        ⟨false, some .x86, [], false, false, false, false⟩ :=
  rtspAndHls.srsBuildFeatures_perm [] (.swap _ _ _) (by decide)
    (List.forall_mem_cons.mpr ⟨by decide, List.forall_mem_singleton.mpr (by decide)⟩) _

end Ssms.App
