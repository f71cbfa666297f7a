import EncoderFleet.Files.Path
import EncoderFleet.Setup.Output
import EncoderFleet.Setup.Platform
import EncoderFleet.Setup.Settings
import EncoderFleet.Setup.Source
import EncoderFleet.Text.Arguments

/-!
# Encoder invocations

An encoder is called with general options, then its input, then how to encode, then where to write:

    <program> -hide_banner -loglevel error -nostdin <input> <encoding> <output>

How the input is opened depends on the output mode. The *signature* of a source does not: it is the part of the input
arguments by which an encoder of this source is recognised in a process table, whatever it was asked to write.

A source with output to files has a directory of its own below the HLS root. `directoryName` writes an id with small
letters, digits, hyphens and underscores alone, so that no id can name a place outside of that root, and two ids share a
directory exactly when they are the same id.
-/

namespace EncoderFleet

/-- Where an encoder writes. -/
inductive OutputTarget
  /-- To its standard output. -/
  | pipe
  /-- Segments and a playlist, into a directory. -/
  | hls (directory playlist : String)
deriving DecidableEq

/-- An encoder invocation. -/
structure Command where
  program : String
  args : List String
  /-- The arguments that tell an encoder of this source from others. -/
  signature : List String
  mode : OutputMode
  target : OutputTarget
deriving DecidableEq

namespace Command

/-- The invocation as one line. -/
def display (c : Command) : String := " ".intercalate (c.program :: c.args)

/-- Bytes that stand for themselves in the name of a source's directory: small letters, digits and the hyphen. -/
def isPlain (b : UInt8) : Bool := (0x61 ≤ b && b ≤ 0x7A) || (0x30 ≤ b && b ≤ 0x39) || b == 0x2D

/-- A digit of base sixteen. -/
def hexDigit (n : Nat) : Char := if n < 10 then Char.ofNat (0x30 + n) else Char.ofNat (0x57 + n)

/-- One byte of an id in the name of a directory; any byte that is not plain is written in base sixteen. -/
def escapeByte (b : UInt8) : List Char :=
  if isPlain b then [Char.ofNat b.toNat] else ['_', hexDigit (b.toNat / 16), hexDigit (b.toNat % 16)]

/-- The name of the directory of a source. -/
def directoryName (id : String) : String :=
  String.ofList ((Bytes.ofString (Text.fold id)).flatMap escapeByte)

/-- The address that the encoder opens. On Windows a capture device is named by what kind of device it is. -/
def locator (platform : Platform) (source : Source) : String :=
  let named := "video=".toList.isPrefixOf source.locator.toList
  if source.kind = .device ∧ platform = .windows ∧ ¬ named then "video=" ++ source.locator else source.locator

/-- The arguments of a source's input override, if it has one that is not blank. -/
def override? (source : Source) : Option (List String) :=
  source.inputOverride.bind fun line =>
    match Text.Arguments.split line with
    | [] => none
    | args => some args

/-- How the encoder opens a source. -/
def inputArgs (platform : Platform) (source : Source) (mode : OutputMode) : List String :=
  match override? source with
  | some args => args
  | none =>
    let opens := ["-i", locator platform source]
    match source.kind with
    | .device =>
      let ready := if mode = .mjpegPassthrough ∧ platform = .linux then ["-input_format", "mjpeg"] else []
      ["-f", platform.deviceFormat] ++ ready ++ opens
    | .rtsp => ["-rtsp_transport", "tcp"] ++ opens
    | .url => opens
    | .file => "-re" :: opens

/-- The arguments by which an encoder of a source is recognised, in whichever mode it runs. -/
def sourceSignature (platform : Platform) (source : Source) : List String :=
  (override? source).getD ["-i", locator platform source]

/-- How the encoder encodes. Profiles describe H.264, so motion JPEG passes over them. -/
def encodeArgs (profileArgs : String) (flags : OutputFlags) : OutputMode → List String
  | .flv | .hls => Text.Arguments.split profileArgs ++ ["-an"]
  | .mjpeg =>
    let size := Text.trimmed flags.mjpegSize
    ["-an", "-c:v", "mjpeg", "-q:v", "5", "-r", toString (max flags.mjpegFps.toNat 1)] ++
      (if size = "" then [] else ["-s", size])
  | .mjpegPassthrough => ["-an", "-c:v", "copy"]

/-- The directory that a source's HLS output goes to. -/
def hlsDirectory (settings : Settings) (id : String) : String := Path.join settings.hlsRoot (directoryName id)

/-- Where a mode writes. -/
def targetOf (directory : String) : OutputMode → OutputTarget
  | .hls => .hls directory (Path.join directory "index.m3u8")
  | .flv | .mjpeg | .mjpegPassthrough => .pipe

/-- How the encoder writes. -/
def outputArgs (settings : Settings) (directory : String) : OutputMode → List String
  | .flv => ["-f", "flv", "-flvflags", "no_duration_filesize", "pipe:1"]
  | .mjpeg | .mjpegPassthrough => ["-f", "mjpeg", "pipe:1"]
  | .hls =>
    [ "-f", "hls", "-hls_time", toString settings.hlsSegmentSeconds, "-hls_list_size", toString settings.hlsListSize,
      "-hls_flags", "delete_segments+omit_endlist", Path.join directory "index.m3u8" ]

/-- The invocation of an encoder for a source. -/
def build (settings : Settings) (platform : Platform) (source : Source) (profileArgs : String) (flags : OutputFlags) :
    Command :=
  let mode := flags.mode
  let directory := hlsDirectory settings source.id
  { program := settings.encoderPath
    args := ["-hide_banner", "-loglevel", "error", "-nostdin"] ++ inputArgs platform source mode ++
      encodeArgs profileArgs flags mode ++ outputArgs settings directory mode
    signature := sourceSignature platform source
    mode := mode
    target := targetOf directory mode }

end Command

end EncoderFleet
