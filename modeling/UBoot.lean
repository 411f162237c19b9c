import UBoot.Armv8.Split
import UBoot.Block.Coherence
import UBoot.Charset.IllFormed
import UBoot.Cli.Bounds
import UBoot.Cli.Simple
import UBoot.Decompress.Bounds
import UBoot.Dfu.Stream
import UBoot.Efi.DevicePath
import UBoot.Efi.Limit
import UBoot.Efi.OpenProtocol
import UBoot.Efi.VariableStore
import UBoot.Env.Flags
import UBoot.Env.Lookup
import UBoot.Env.Mmc
import UBoot.Env.Readers
import UBoot.Env.Sf
import UBoot.Fat.Array
import UBoot.Fit.Binding
import UBoot.Fit.Required
import UBoot.Hashtable.Failure
import UBoot.Hashtable.Match
import UBoot.Hashtable.Size
import UBoot.Lmb.Failure
import UBoot.Net.Arp
import UBoot.Net.Bootp
import UBoot.Net.Checksum
import UBoot.Net.Dns
import UBoot.Net.Fastboot
import UBoot.Net.NfsReply
import UBoot.Net.Reassembly
import UBoot.Net.TftpPut
import UBoot.Net.TftpSend
import UBoot.Part.DosPrint
import UBoot.Part.GptFill
import UBoot.Part.GptRead
import UBoot.Rsa.Padding
import UBoot.SRecord.Save
import UBoot.Spi.Access
import UBoot.Spi.Sst26
import UBoot.Spi.StmLock
