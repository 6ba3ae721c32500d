import ClassListing.Disassemble
import ClassListing.Edit
import ClassListing.Proofs.Annotations.Depth
import ClassListing.Proofs.Attribute.Nesting
import ClassListing.Proofs.ClassFile.Extension
import ClassListing.Proofs.Code.RoundTrip
import ClassListing.Proofs.Constant.Layout
import ClassListing.Proofs.Constant.Resolution
import ClassListing.Proofs.Descriptor.Grammar
import ClassListing.Proofs.Listing.Sections
import ClassListing.Proofs.Text.CodeUnits
import ClassListing.Proofs.Cursor.Trace
import ClassListing.Proofs.Listing.Detail
import ClassListing.Proofs.Code.FirstFault
import ClassListing.Proofs.Listing.Bootstrap
import ClassListing.Proofs.Frame.Encoding
import ClassListing.Proofs.Frame.RoundTrip
import ClassListing.Proofs.Text.Quoting
import ClassListing.Proofs.Cursor.Consultation
import ClassListing.Proofs.ModuleDeclaration
import ClassListing.Proofs.Annotations.Numbers
import ClassListing.Proofs.Listing.ConstantTable
import ClassListing.Proofs.Listing.FrameOffsets
import ClassListing.Proofs.Text.EncodedZero
